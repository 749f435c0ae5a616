import EnvManifest.Document.Parser.Literal
import EnvManifest.Proofs.Grammar
import EnvManifest.Proofs.Reading.Slot

/-!
# Reading string literals

A literal is read to the text that its spelling stands for, whatever comes behind its
closing quote (`Parser.run_literal`, `Parser.isLiteral_of_run`). Behind the escape of a
high surrogate the reader looks one escape further, so that the side condition of
`Spells.unit` is what it goes by (`readLowSurrogate_of_spells`). The canonical spelling
of a text is one of its spellings (`isLiteral_ofText`).
-/

namespace EnvManifest

/-! ### Units -/

theorem readUnit_append {t : Text} {u : Nat} (h : IsUnit t u) (rest : Text) :
    readUnit (t ++ rest) = .ok (u, rest) := by
  cases h with
  | mk ha hb hc hd => simp [readUnit, hexDigit?_eq, ha, hb, hc, hd]

theorem isUnit_of_readUnit {s rest : Text} {u : Nat} (h : readUnit s = .ok (u, rest)) :
    ∃ t, s = t ++ rest ∧ IsUnit t u := by
  unfold readUnit at h
  split at h
  · rename_i a b c d r
    split at h
    · rename_i x y z w ha hb hc hd
      obtain ⟨rfl, rfl⟩ := by simpa using h
      rw [hexDigit?_eq] at ha hb hc hd
      exact ⟨[a, b, c, d], rfl, .mk ha hb hc hd⟩
    · simp at h
  · simp at h

/-! ### The escape behind a high surrogate -/

theorem readLowSurrogate_escape {t : Text} {u : Nat} (h : IsUnit t u) (rest : Text) :
    readLowSurrogate ('\\' :: 'u' :: (t ++ rest)) =
      if IsLow u then .ok (some u, rest) else .ok (none, '\\' :: 'u' :: (t ++ rest)) := by
  rw [readLowSurrogate, readUnit_append h]
  simp only [isLowSurrogate_iff]

/-- A text that begins with no escape of a unit has no low surrogate to read. -/
theorem readLowSurrogate_of_ne {s : Text} (h : ∀ r, s ≠ '\\' :: 'u' :: r) :
    readLowSurrogate s = .ok (none, s) := by
  unfold readLowSurrogate
  split
  · rename_i r
    exact absurd rfl (h r)
  · rfl

/-- Behind a high surrogate, whatever is no low one stays unread. -/
theorem readLowSurrogate_of_spells {s v : Text} (h : Spells s v) (hlow : ¬LowSurrogateFirst s)
    (rest : Text) : readLowSurrogate (s ++ '"' :: rest) = .ok (none, s ++ '"' :: rest) := by
  cases h with
  | nil => exact readLowSurrogate_of_ne (by simp)
  | plain _ _ hslash _ => exact readLowSurrogate_of_ne (by simp [hslash])
  | short hshort _ =>
    refine readLowSurrogate_of_ne fun r hr => ?_
    obtain ⟨rfl, -⟩ := by simpa using hr
    simp at hshort
  | @unit t u s v hu _ _ =>
    have hu' : ¬IsLow u := fun hu' => hlow ⟨t, u, s, rfl, hu, hu'⟩
    simp [readLowSurrogate_escape hu, hu']
  | @pair t₁ t₂ high low s v hhigh hhigh' _ _ _ =>
    have hu' : ¬IsLow high := fun hu' => hu'.not_isHigh hhigh'
    simp [readLowSurrogate_escape hhigh, hu']

/-- What is read as a low surrogate is the escape of one. -/
theorem lowSurrogate_of_read {s rest : Text} {u : Nat}
    (h : readLowSurrogate s = .ok (some u, rest)) :
    ∃ t, s = '\\' :: 'u' :: (t ++ rest) ∧ IsUnit t u ∧ IsLow u := by
  fun_cases readLowSurrogate s with
  | case1 r low after hread hlow =>
    simp only [readLowSurrogate, hread, hlow, if_true] at h
    obtain ⟨rfl, rfl⟩ := by simpa using h
    obtain ⟨t, rfl, ht⟩ := isUnit_of_readUnit hread
    exact ⟨t, rfl, ht, isLowSurrogate_iff.1 hlow⟩
  | case2 r low after hread hlow => simp [readLowSurrogate, hread, hlow] at h
  | case3 r e hread => simp [readLowSurrogate, hread] at h
  | case4 _ hne =>
    rw [readLowSurrogate_of_ne hne] at h
    simp at h

/-- If no low surrogate is read, nothing is, and none stands there. -/
theorem not_lowSurrogateFirst_of_read {s rest : Text} (h : readLowSurrogate s = .ok (none, rest)) :
    rest = s ∧ ¬LowSurrogateFirst s := by
  constructor
  · fun_cases readLowSurrogate s with
    | case1 r low after hread hlow => simp [readLowSurrogate, hread, hlow] at h
    | case2 r low after hread hlow => simpa [readLowSurrogate, hread, hlow, eq_comm] using h
    | case3 r e hread => simp [readLowSurrogate, hread] at h
    | case4 _ hne => simpa [readLowSurrogate_of_ne hne, eq_comm] using h
  · rintro ⟨t, u, r, rfl, hu, hlow⟩
    simp [readLowSurrogate_escape hu, hlow] at h

/-! ### Escapes -/

namespace Parser

theorem run_escape_short {c d : Char} (h : escapes.lookup c = some d) (rest : Text) :
    escape.run (c :: rest) = .ok (d, rest) := by
  simp [escape, shortEscape?_eq, h]

theorem run_escape_u (rest : Text) : escape.run ('u' :: rest) = unicodeEscape.run rest := by
  simp [escape, shortEscape?]

/-- A unit that no low surrogate is read behind stands for itself. -/
theorem run_unicodeEscape_unit {t rest : Text} {u : Nat} (h : IsUnit t u)
    (hlow : IsHigh u → readLowSurrogate rest = .ok (none, rest)) :
    unicodeEscape.run (t ++ rest) = .ok (aloneChar u, rest) := by
  rw [unicodeEscape, run_bind_of_eq (readUnit_append h rest), ← unitChar_eq]
  split
  · rename_i hhigh
    have hread : lowSurrogate?.run rest = .ok (none, rest) := hlow (isHighSurrogate_iff.1 hhigh)
    rw [run_bind_of_eq hread]
    simp [unitChar, hhigh]
  · rfl

theorem run_unicodeEscape_pair {t₁ t₂ : Text} {high low : Nat} (h₁ : IsUnit t₁ high)
    (hhigh : IsHigh high) (h₂ : IsUnit t₂ low) (hlow : IsLow low) (rest : Text) :
    unicodeEscape.run (t₁ ++ '\\' :: 'u' :: (t₂ ++ rest)) = .ok (pairedChar high low, rest) := by
  have hread : lowSurrogate?.run ('\\' :: 'u' :: (t₂ ++ rest)) = .ok (some low, rest) :=
    (readLowSurrogate_escape h₂ rest).trans (if_pos hlow)
  rw [unicodeEscape, run_bind_of_eq (readUnit_append h₁ _), if_pos (isHighSurrogate_iff.2 hhigh),
    run_bind_of_eq hread, ← pairChar_eq hhigh hlow]
  rfl

/-- What is read behind `\u`: a unit by itself, or a pair. -/
theorem unicodeEscape_cases {s rest : Text} {c : Char} (h : unicodeEscape.run s = .ok (c, rest)) :
    (∃ t u, s = t ++ rest ∧ IsUnit t u ∧ c = aloneChar u ∧
      ¬(IsHigh u ∧ LowSurrogateFirst rest)) ∨
    ∃ t₁ t₂ high low, s = t₁ ++ '\\' :: 'u' :: (t₂ ++ rest) ∧ IsUnit t₁ high ∧ IsHigh high ∧
      IsUnit t₂ low ∧ IsLow low ∧ c = pairedChar high low := by
  obtain ⟨u, s₁, hunit, hrun⟩ := run_bind_eq_ok.1 h
  obtain ⟨t, rfl, ht⟩ := isUnit_of_readUnit hunit
  clear h
  split at hrun
  · rename_i hhigh
    obtain ⟨low?, s₂, hread, hpure⟩ := run_bind_eq_ok.1 hrun
    cases low? with
    | none =>
      obtain ⟨rfl, rfl⟩ := by simpa using hpure
      obtain ⟨rfl, hlow⟩ := not_lowSurrogateFirst_of_read hread
      refine Or.inl ⟨t, u, rfl, ht, ?_, fun hboth => hlow hboth.2⟩
      simp [← unitChar_eq, unitChar, hhigh]
    | some low =>
      obtain ⟨rfl, rfl⟩ := by simpa using hpure
      obtain ⟨t₂, rfl, ht₂, hlow⟩ := lowSurrogate_of_read hread
      have hhigh := isHighSurrogate_iff.1 hhigh
      exact Or.inr ⟨t, t₂, u, low, rfl, ht, hhigh, ht₂, hlow, pairChar_eq hhigh hlow⟩
  · rename_i hhigh
    obtain ⟨rfl, rfl⟩ := by simpa using hrun
    exact Or.inl ⟨t, u, rfl, ht, unitChar_eq u, fun hboth => hhigh (isHighSurrogate_iff.2 hboth.1)⟩

/-- What is read behind a backslash: a short escape, or one of a unit. -/
theorem escape_cases {s rest : Text} {c : Char} (h : escape.run s = .ok (c, rest)) :
    (∃ d, s = d :: rest ∧ escapes.lookup d = some c) ∨
      ∃ s', s = 'u' :: s' ∧ unicodeEscape.run s' = .ok (c, rest) := by
  cases s with
  | nil => simp [escape] at h
  | cons d s =>
    cases hd : escapes.lookup d with
    | some c' =>
      rw [run_escape_short hd] at h
      obtain ⟨rfl, rfl⟩ := by simpa using h
      exact Or.inl ⟨d, rfl, hd⟩
    | none =>
      by_cases hu : d = 'u'
      · subst hu
        exact Or.inr ⟨s, rfl, by rwa [run_escape_u] at h⟩
      · simp [escape, shortEscape?_eq, hd, hu] at h

end Parser

/-! ### Bodies -/

theorem readBody_quote (rest : Text) : readBody ('"' :: rest) = .ok ([], rest) := by
  rw [readBody]

theorem readBody_plain {c : Char} {s v rest : Text} (hc : 0x20 ≤ c.toNat) (hquote : c ≠ '"')
    (hslash : c ≠ '\\') (h : readBody s = .ok (v, rest)) :
    readBody (c :: s) = .ok (c :: v, rest) := by
  rw [readBody, if_neg (by omega), h]
  · exact hquote
  · exact hslash

theorem readBody_escape {c : Char} {s after v rest : Text}
    (hc : Parser.escape.run s = .ok (c, after)) (h : readBody after = .ok (v, rest)) :
    readBody ('\\' :: s) = .ok (c :: v, rest) := by
  rw [readBody]
  split
  · rename_i hc'
    rw [hc] at hc'
    obtain ⟨rfl, rfl⟩ := by simpa using hc'
    rw [h]
  · rename_i hc'
    rw [hc] at hc'
    simp at hc'

/-- A body is read up to its quote. -/
theorem readBody_of_spells {body v : Text} (h : Spells body v) (rest : Text) :
    readBody (body ++ '"' :: rest) = .ok (v, rest) := by
  induction h with
  | nil => exact readBody_quote rest
  | plain hc hquote hslash _ ih => exact readBody_plain hc hquote hslash ih
  | short hshort _ ih => exact readBody_escape (Parser.run_escape_short hshort _) ih
  | @unit t u s v hu hlow hs ih =>
    have hrun := Parser.run_unicodeEscape_unit hu fun hhigh =>
      readLowSurrogate_of_spells hs (fun hfirst => hlow ⟨hhigh, hfirst⟩) rest
    refine readBody_escape ?_ ih
    simpa [Parser.run_escape_u] using hrun
  | @pair t₁ t₂ high low s v hhigh hhigh' hlow hlow' _ ih =>
    have hrun := Parser.run_unicodeEscape_pair hhigh hhigh' hlow hlow' (s ++ '"' :: rest)
    refine readBody_escape ?_ ih
    simpa [Parser.run_escape_u] using hrun

theorem LowSurrogateFirst.append {s : Text} (h : LowSurrogateFirst s) (rest : Text) :
    LowSurrogateFirst (s ++ rest) := by
  obtain ⟨t, u, r, rfl, hu, hlow⟩ := h
  exact ⟨t, u, r ++ rest, by simp, hu, hlow⟩

/-- What is read up to a quote is a body. -/
theorem spells_of_readBody {s v rest : Text} (h : readBody s = .ok (v, rest)) :
    ∃ body, s = body ++ '"' :: rest ∧ Spells body v := by
  fun_induction readBody s generalizing v rest with
  | case1 => simp at h
  | case2 r =>
    obtain ⟨rfl, rfl⟩ := by simpa using h
    exact ⟨[], rfl, .nil⟩
  | case3 r c after hescape cs left hread ih =>
    obtain ⟨rfl, rfl⟩ := by simpa using h
    obtain ⟨body, rfl, hbody⟩ := ih hread
    rcases Parser.escape_cases hescape with ⟨d, rfl, hd⟩ | ⟨r, rfl, hunicode⟩
    · exact ⟨'\\' :: d :: body, rfl, .short hd hbody⟩
    · rcases Parser.unicodeEscape_cases hunicode with
        ⟨t, u, rfl, hu, rfl, hlow⟩ | ⟨t₁, t₂, high, low, rfl, hhigh, hhigh', hlow, hlow', hc⟩
      -- a unit that stands for itself is no high surrogate in front of a low one
      · refine ⟨'\\' :: 'u' :: (t ++ body), by simp, .unit hu (fun hboth => hlow ?_) hbody⟩
        exact ⟨hboth.1, hboth.2.append _⟩
      · refine ⟨'\\' :: 'u' :: (t₁ ++ '\\' :: 'u' :: (t₂ ++ body)), by simp, ?_⟩
        rw [hc]
        exact .pair hhigh hhigh' hlow hlow' hbody
  | case4 => simp at h
  | case5 => simp at h
  | case6 => simp at h
  | case7 c r hquote hslash hc cs left hread ih =>
    obtain ⟨rfl, rfl⟩ := by simpa using h
    obtain ⟨body, rfl, hbody⟩ := ih hread
    refine ⟨c :: body, rfl, .plain (by omega) (fun hq => ?_) (fun hs => ?_) hbody⟩
    · exact hquote hq
    · exact hslash hs
  | case8 => simp at h

/-! ### Literals -/

namespace Parser

/-- **A literal is read to the text it stands for.** -/
theorem run_literal {l : Literal} (h : IsLiteral l) (rest : Text) :
    literal.run (l.raw ++ rest) = .ok (l, rest) := by
  obtain ⟨body, hraw, hbody⟩ := h
  have hread : readBody (body ++ '"' :: rest) = .ok (l.value, rest) := readBody_of_spells hbody rest
  rw [literal, run_bind_of_eq (run_spelled_eq_ok.2 ⟨?_, rfl⟩)]
  · rfl
  · simpa [hraw] using hread

/-- **What is read as a literal is one.** -/
theorem isLiteral_of_run {s rest : Text} {l : Literal} (hquote : s.head? = some '"')
    (h : literal.run s = .ok (l, rest)) : l.raw ++ rest = s ∧ IsLiteral l := by
  obtain ⟨⟨v, raw⟩, s₁, hspelled, hpure⟩ := run_bind_eq_ok.1 h
  obtain ⟨rfl, rfl⟩ := by simpa using hpure
  obtain ⟨hrun, happ⟩ := run_spelled_eq_ok.1 hspelled
  obtain ⟨s, rfl⟩ := List.head?_eq_some_iff.1 hquote
  have hread : readBody s = .ok (v, s₁) := by simpa using hrun
  obtain ⟨body, rfl, hbody⟩ := spells_of_readBody hread
  have hraw : raw ++ s₁ = '"' :: (body ++ ['"']) ++ s₁ := by simp [happ]
  exact ⟨happ, body, List.append_cancel_right hraw, hbody⟩

end Parser

/-! ### Canonical spellings -/

theorem hexValue?_digitChar {n : Nat} (h : n < 16) : hexValue? n.digitChar = some n := by
  revert n
  decide

theorem isUnit_control {n : Nat} (h : n < 0x20) :
    IsUnit ['0', '0', Nat.digitChar (n / 16), Nat.digitChar (n % 16)] n := by
  have hunit := IsUnit.mk (a := '0') (b := '0') (x := 0) (y := 0) rfl rfl
    (hexValue?_digitChar (n := n / 16) (by omega)) (hexValue?_digitChar (n := n % 16) (by omega))
  have hn : ((0 * 16 + 0) * 16 + n / 16) * 16 + n % 16 = n := by omega
  rwa [hn] at hunit

/-- One character in its canonical spelling, in front of a body. -/
theorem Spells.spellChar {s v : Text} (h : Spells s v) (c : Char) :
    Spells (Literal.spellChar c ++ s) (c :: v) := by
  unfold Literal.spellChar
  split_ifs with h₁ h₂ h₃ h₄ h₅ h₆ h₇ h₈
  · exact .short (h₁.symm ▸ rfl) h
  · exact .short (h₂.symm ▸ rfl) h
  · exact .short (h₃ ▸ rfl) h
  · exact .short (h₄ ▸ rfl) h
  · exact .short (h₅ ▸ rfl) h
  · exact .short (h₆ ▸ rfl) h
  · exact .short (h₇ ▸ rfl) h
  · have hunit := Spells.unit (isUnit_control h₈) (fun hboth => (not_surrogate c).1 hboth.1) h
    rwa [aloneChar_toNat] at hunit
  · exact .plain (by omega) h₁ h₂ h

/-- **The canonical spelling of a text stands for it.** -/
theorem isLiteral_ofText (s : Text) : IsLiteral (Literal.ofText s) := by
  refine ⟨s.flatMap Literal.spellChar, rfl, ?_⟩
  change Spells (s.flatMap Literal.spellChar) s
  induction s with
  | nil => exact .nil
  | cons c s ih => exact ih.spellChar c

end EnvManifest
