import EnvManifest.Proofs.Terminals
import Mathlib.Data.List.Basic

/-!
# Gaps

What may stand between two tokens of a document is a *gap*: blanks and whole
comments. A line comment runs up to a newline, which belongs to the gap; a block
comment is closed by the first `*/` behind its opening mark. Behind the last token
a line comment may also run up to the end of the input, and then a newline is all
that the text lacks to be a gap (`Whole`).

`Gap` is the grammar. Slots are cut and glued all the time, so what is needed of it
is how it goes with concatenation, and that is best seen in the automaton that
recognizes it: `Lexing` is where a reader of a gap stands, `scan` is what a text does
to it, and `gap_iff_scan` says that the two are the same. A text that ends inside a
line comment, for instance, is glued to another one with `scan_append`, and the next
newline is what brings it back (`scan_line_append`).
-/

namespace EnvManifest

/-! ### The grammar -/

/-- A text of blanks and whole comments. -/
inductive Gap : Text → Prop
  | nil : Gap []
  | blank {c : Char} {s : Text} : isWhite c = true → Gap s → Gap (c :: s)
  | line {body s : Text} : '\n' ∉ body → Gap s → Gap ('/' :: '/' :: (body ++ '\n' :: s))
  | block {body s : Text} : ¬['*', '/'] <:+: body → Gap s →
      Gap ('/' :: '*' :: (body ++ '*' :: '/' :: s))

/-- A text of whole comments, the last of which may be a line comment that the text
ends in. -/
def Whole (s : Text) : Prop :=
  Gap (s ++ ['\n'])

/-! ### Where a block comment ends -/

theorem infix_of_tail {a : Char} {s t : Text} (h : t <:+: s) : t <:+: a :: s :=
  h.trans (List.infix_cons (List.infix_refl s))

/-- A block comment is cut behind the first closing mark. -/
theorem cutAtClose_append {body : Text} (h : ¬['*', '/'] <:+: body) (rest : Text) :
    cutAtClose (body ++ '*' :: '/' :: rest) = some (body ++ ['*', '/'], rest) := by
  induction body with
  | nil => rfl
  | cons c body ih =>
    have hbody : ¬['*', '/'] <:+: body := fun hin => h (infix_of_tail hin)
    rw [List.cons_append, cutAtClose]
    · simp [ih hbody]
    · intro r hc hr
      subst hc
      cases body with
      | nil => simp at hr
      | cons d body =>
        obtain ⟨rfl, -⟩ := List.cons.inj hr
        exact h ⟨[], body, rfl⟩

/-- What is cut off is a body without a closing mark, and the mark. -/
theorem body_of_cutAtClose {s cut rest : Text} (h : cutAtClose s = some (cut, rest)) :
    ∃ body, cut = body ++ ['*', '/'] ∧ ¬['*', '/'] <:+: body ∧ s = body ++ '*' :: '/' :: rest := by
  fun_induction cutAtClose s generalizing cut rest with
  | case1 r =>
    obtain ⟨rfl, rfl⟩ := by simpa using h
    exact ⟨[], rfl, by simp, rfl⟩
  | case2 c r hne ih =>
    obtain ⟨⟨b, t⟩, hcut, heq⟩ := Option.map_eq_some_iff.1 h
    obtain ⟨rfl, rfl⟩ := by simpa using heq
    obtain ⟨body, rfl, hbody, rfl⟩ := ih hcut
    refine ⟨c :: body, rfl, ?_, rfl⟩
    rintro hin
    rcases List.infix_cons_iff.1 hin with hpre | hin
    · obtain ⟨k, hk⟩ := hpre
      obtain ⟨rfl, rfl⟩ := List.cons.inj hk
      exact hne (k ++ '*' :: '/' :: t) rfl rfl
    · exact hbody hin
  | case3 => simp at h

/-! ### The automaton -/

/-- Where a reader of a gap stands: between tokens, behind a slash, in a line
comment, in a block comment, or behind a star in a block comment. -/
inductive Lexing where
  | between
  | slash
  | line
  | block
  | star
deriving DecidableEq

/-- Where a reader stands after one more character. -/
def Lexing.next : Lexing → Char → Option Lexing
  | between, c => if isWhite c then some between else if c = '/' then some slash else none
  | slash, c => if c = '/' then some line else if c = '*' then some block else none
  | line, c => if c = '\n' then some between else some line
  | block, c => if c = '*' then some star else some block
  | star, c => if c = '/' then some between else if c = '*' then some star else some block

/-- Where a reader stands after a text, unless it stops in it. -/
def scan : Lexing → Text → Option Lexing
  | q, [] => some q
  | q, c :: s => (q.next c).bind fun r => scan r s

@[simp]
theorem scan_nil (q : Lexing) : scan q [] = some q := rfl

theorem scan_cons (q : Lexing) (c : Char) (s : Text) :
    scan q (c :: s) = (q.next c).bind fun r => scan r s := rfl

/-- **A text is scanned part by part.** -/
theorem scan_append (q : Lexing) (s t : Text) :
    scan q (s ++ t) = (scan q s).bind fun r => scan r t := by
  induction s generalizing q with
  | nil => rfl
  | cons c s ih =>
    rw [List.cons_append, scan_cons, scan_cons]
    cases q.next c with
    | none => rfl
    | some r => exact ih r

theorem scan_append_of_eq {q r : Lexing} {s : Text} (h : scan q s = some r) (t : Text) :
    scan q (s ++ t) = scan r t := by
  rw [scan_append, h]
  rfl

@[simp]
theorem scan_between_blank {c : Char} (h : isWhite c = true) (s : Text) :
    scan .between (c :: s) = scan .between s := by
  simp [scan_cons, Lexing.next, h]

/-- A line comment goes on as long as there is no newline. -/
theorem scan_line_of_not_mem {s : Text} (h : '\n' ∉ s) : scan .line s = some .line := by
  induction s with
  | nil => rfl
  | cons c s ih =>
    obtain ⟨hc, hs⟩ := by simpa [eq_comm] using h
    simp [scan_cons, Lexing.next, hc, ih hs]

/-- A newline ends a line comment. -/
theorem scan_line_append {body : Text} (h : '\n' ∉ body) (s : Text) :
    scan .line (body ++ '\n' :: s) = scan .between s := by
  rw [scan_append_of_eq (scan_line_of_not_mem h)]
  rfl

/-- Behind a star in a block comment, all but a slash is read as in the comment. -/
theorem scan_star_of_head?_ne {s : Text} (hs : s ≠ []) (h : s.head? ≠ some '/') :
    scan .star s = scan .block s := by
  cases s with
  | nil => exact absurd rfl hs
  | cons c s =>
    have hc : c ≠ '/' := fun hc => h (by rw [hc]; rfl)
    simp [scan_cons, Lexing.next, hc]

/-- The first closing mark ends a block comment. -/
theorem scan_block_of_cutAtClose {s cut rest : Text} (h : cutAtClose s = some (cut, rest)) :
    scan .block s = scan .between rest := by
  fun_induction cutAtClose s generalizing cut rest with
  | case1 r =>
    obtain ⟨-, rfl⟩ := by simpa using h
    rfl
  | case2 c r hne ih =>
    obtain ⟨⟨b, t⟩, hcut, heq⟩ := Option.map_eq_some_iff.1 h
    obtain ⟨-, rfl⟩ := by simpa using heq
    rw [← ih hcut, scan_cons, Lexing.next]
    split
    · rename_i hc
      refine scan_star_of_head?_ne ?_ fun hr => ?_
      · rintro rfl
        simp [cutAtClose] at hcut
      · obtain ⟨r', rfl⟩ := List.head?_eq_some_iff.1 hr
        exact hne r' hc rfl
    · rfl
  | case3 => simp at h

/-- Without a closing mark a block comment does not end. -/
theorem scan_block_of_cutAtClose_none {s : Text} (h : cutAtClose s = none) :
    scan .block s = some .block ∨ scan .block s = some .star := by
  fun_induction cutAtClose s with
  | case1 r => simp at h
  | case2 c r hne ih =>
    have hr := ih (by simpa using h)
    rw [scan_cons, Lexing.next]
    split
    · rename_i hc
      by_cases hnil : r = []
      · subst hnil
        exact Or.inr rfl
      · have hstar := scan_star_of_head?_ne hnil fun hslash => by
          obtain ⟨r', rfl⟩ := List.head?_eq_some_iff.1 hslash
          exact hne r' hc rfl
        simpa [hstar] using hr
    · simpa using hr
  | case3 => exact Or.inl rfl

/-! ### The automaton and the grammar -/

/-- A gap takes a reader from between two tokens to between two tokens. -/
theorem Gap.scan_eq {s : Text} (h : Gap s) : scan .between s = some .between := by
  induction h with
  | nil => rfl
  | blank hc _ ih => rwa [scan_between_blank hc]
  | line hbody _ ih =>
    change scan .line _ = _
    rwa [scan_line_append hbody]
  | block hbody _ ih =>
    change scan .block _ = _
    rwa [scan_block_of_cutAtClose (cutAtClose_append hbody _)]

/-- What can be read between tokens begins with a blank if it begins with no comment. -/
theorem isWhite_of_scan {c : Char} {s : Text} {q : Lexing}
    (h : scan .between (c :: s) = some q) (hq : q = .between ∨ q = .line)
    (hslash : ∀ r, c = '/' → s ≠ '/' :: r) (hstar : ∀ r, c = '/' → s ≠ '*' :: r) :
    isWhite c = true := by
  by_contra hc
  rw [scan_cons, Lexing.next, if_neg hc] at h
  split at h
  · rename_i hc'
    cases s with
    | nil =>
      obtain rfl : Lexing.slash = q := Option.some.inj h
      simp at hq
    | cons d s =>
      have hd₁ : d ≠ '/' := fun hd => hslash s hc' (by rw [hd])
      have hd₂ : d ≠ '*' := fun hd => hstar s hc' (by rw [hd])
      simp [scan_cons, Lexing.next, hd₁, hd₂] at h
  · simp at h

/-- A text in a line comment runs up to its first newline, or is all comment. -/
theorem scan_line_cases (s : Text) :
    (scan .line s = some .line ∧ '\n' ∉ s) ∨
      ∃ body rest, s = body ++ '\n' :: rest ∧ '\n' ∉ body ∧
        scan .line s = scan .between rest := by
  by_cases h : '\n' ∈ s
  · obtain ⟨body, rest, rfl, hbody⟩ := List.eq_append_cons_of_mem h
    exact Or.inr ⟨body, rest, rfl, hbody, scan_line_append hbody rest⟩
  · exact Or.inl ⟨scan_line_of_not_mem h, h⟩

/-- **The automaton recognizes the gaps.** -/
theorem gap_iff_scan (s : Text) : Gap s ↔ scan .between s = some .between := by
  refine ⟨Gap.scan_eq, fun h => ?_⟩
  induction hn : s.length using Nat.strongRecOn generalizing s with
  | ind n ih =>
    subst hn
    -- the first character decides the rule, the length of what is behind it the induction
    match s with
    | [] => exact .nil
    | c :: s =>
      by_cases hc : isWhite c = true
      · rw [scan_between_blank hc] at h
        exact .blank hc (ih s.length (by simp) s h rfl)
      · obtain ⟨rfl, hslash⟩ : c = '/' ∧ scan .slash s = some .between := by
          rw [scan_cons, Lexing.next, if_neg hc] at h
          split at h
          · exact ⟨‹_›, h⟩
          · simp at h
        clear h hc
        match s with
        | [] => simp at hslash
        | d :: s =>
          rw [scan_cons, Lexing.next] at hslash
          split at hslash
          · rename_i hd
            subst hd
            rcases scan_line_cases s with ⟨hline, -⟩ | ⟨body, rest, rfl, hbody, hrest⟩
            -- a line comment that no newline ends is no gap
            · simp [hline] at hslash
            · refine .line hbody (ih rest.length ?_ rest (by simpa [hrest] using hslash) rfl)
              simp only [List.length_cons, List.length_append]
              omega
          · split at hslash
            · rename_i hd
              subst hd
              match hcut : cutAtClose s with
              | none =>
                rcases scan_block_of_cutAtClose_none hcut with hs | hs <;> simp [hs] at hslash
              | some (cut, rest) =>
                have hrest : scan .between rest = some .between := by
                  simpa [scan_block_of_cutAtClose hcut] using hslash
                obtain ⟨body, -, hbody, rfl⟩ := body_of_cutAtClose hcut
                refine .block hbody (ih rest.length ?_ rest hrest rfl)
                simp only [List.length_cons, List.length_append]
                omega
            · simp at hslash

/-- A text is whole if a reader of it ends between two tokens or in a line comment. -/
theorem whole_iff_scan (s : Text) :
    Whole s ↔ scan .between s = some .between ∨ scan .between s = some .line := by
  rw [Whole, gap_iff_scan, scan_append]
  cases scan .between s with
  | none => simp
  | some q => cases q <;> simp [scan_cons, Lexing.next, isWhite]

/-! ### Gluing -/

theorem Gap.whole {s : Text} (h : Gap s) : Whole s :=
  (whole_iff_scan s).2 (Or.inl h.scan_eq)

/-- Two gaps make a gap. -/
theorem Gap.append {s t : Text} (hs : Gap s) (ht : Gap t) : Gap (s ++ t) := by
  rw [gap_iff_scan, scan_append_of_eq hs.scan_eq]
  exact ht.scan_eq

/-- What follows a gap in a gap is a gap. -/
theorem Gap.of_append {s t : Text} (h : Gap (s ++ t)) (hs : Gap s) : Gap t := by
  rw [gap_iff_scan, scan_append_of_eq hs.scan_eq] at h
  exact (gap_iff_scan t).2 h

/-- What follows a gap in a whole text is whole. -/
theorem Gap.append_whole {s t : Text} (hs : Gap s) (ht : Whole t) : Whole (s ++ t) := by
  rw [Whole, List.append_assoc]
  exact hs.append ht

/-- A text of blanks is a gap. -/
theorem gap_of_all_isWhite {s : Text} (h : ∀ c ∈ s, isWhite c = true) : Gap s := by
  induction s with
  | nil => exact .nil
  | cons c s ih =>
    exact .blank (h c List.mem_cons_self) (ih fun d hd => h d (List.mem_cons_of_mem c hd))

/-- A text that ends in a line comment needs a newline to be part of a gap. -/
theorem mem_newline_of_gap_append {s t : Text} (hs : scan .between s = some .line)
    (h : Gap (s ++ t)) : '\n' ∈ t := by
  by_contra hn
  rw [gap_iff_scan, scan_append_of_eq hs, scan_line_of_not_mem hn] at h
  simp at h

end EnvManifest
