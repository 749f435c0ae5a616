import EnvManifest.Proofs.Reading.Literal
import EnvManifest.Proofs.Reading.Number
import Mathlib.Computability.Language

/-!
# What can still be completed

A parser that stops has read a part of its input. Whether that part was good is not a matter of
what it has accepted so far, since it may stop in the middle of a literal or between the halves of
a pair, but of what could still come: `Completable L s x` says of an answer `x` to a text `s` that
what is in front of its rest can be completed to a text of the language `L`. If the parser goes on,
what it has read is in `L` as it is, but for the end of the input, where a slot may still lack the
newline of its last comment.

Languages are put together as parsers are (`completable_bind`): a part that stops is completed with
any text of the parts that would have come after it. This file has the rules, and the languages of
slots, words, numbers and literals.
-/

namespace EnvManifest

/-! ### Answers -/

/-- What an answer has not left unread can be completed to a text of `L`. What was read to the end
is such a text by itself, unless it is all of the input. -/
def Completable {α : Type} (L : Language Char) (s : Text) : Except Fault (α × Text) → Prop
  | .ok (_, rest) => ∃ front ext, front ++ rest = s ∧ front ++ ext ∈ L ∧ (rest = [] ∨ ext = [])
  | .error f => ∃ front ext, front ++ f.rest = s ∧ front ++ ext ∈ L

variable {α β : Type} {L M : Language Char} {s rest : Text}

theorem Completable.mono {x : Except Fault (α × Text)} (h : Completable L s x)
    (hLM : ∀ t ∈ L, t ∈ M) : Completable M s x := by
  match x, h with
  | .ok _, ⟨front, ext, happ, hmem, hend⟩ => exact ⟨front, ext, happ, hLM _ hmem, hend⟩
  | .error _, ⟨front, ext, happ, hmem⟩ => exact ⟨front, ext, happ, hLM _ hmem⟩

/-- A text of the language that was read needs nothing more. -/
theorem completable_ok {a : α} {t : Text} (h : t ∈ L) (rest : Text) :
    Completable L (t ++ rest) (.ok (a, rest)) :=
  ⟨t, [], rfl, by simpa using h, Or.inr rfl⟩

/-- A parser that stops where it began has all of a text still to come. -/
theorem completable_error {t : Text} (h : t ∈ L) (c : Cause) (s : Text) :
    Completable (α := α) L s (.error ⟨c, s⟩) :=
  ⟨[], t, rfl, h⟩

/-- **Two answers, one behind the other.** -/
theorem Completable.append {a : α} {x : Except Fault (β × Text)}
    (h : Completable L s (.ok (a, rest))) (hx : Completable M rest x) :
    Completable (L * M) s x := by
  obtain ⟨front, ext, rfl, hL, hend⟩ := h
  -- at the end of the input there is nothing left to read, and both parts are completed
  have hglue : ∀ {front' ext' rest'}, front' ++ rest' = rest → front' ++ ext' ∈ M →
      ∃ ext'', (front ++ front') ++ ext'' ∈ L * M ∧ (ext' = [] → rest ≠ [] → ext'' = []) := by
    rintro front' ext' rest' rfl hM
    rcases hend with hnil | rfl
    · obtain ⟨rfl, rfl⟩ := List.append_eq_nil_iff.1 hnil
      exact ⟨ext ++ ext', by simpa using Language.append_mem_mul hL hM, by simp⟩
    · exact ⟨ext', by simpa using Language.append_mem_mul hL hM, fun h _ => h⟩
  match x, hx with
  | .ok (b, rest'), ⟨front', ext', happ, hM, hend'⟩ =>
    obtain ⟨ext'', hmem, hnil⟩ := hglue happ hM
    refine ⟨front ++ front', ext'', by simp [happ], hmem, ?_⟩
    by_cases hrest : rest' = []
    · exact Or.inl hrest
    · exact Or.inr (hnil (hend'.resolve_left hrest) fun h => hrest (by simp_all))
  | .error f, ⟨front', ext', happ, hM⟩ =>
    obtain ⟨ext'', hmem, -⟩ := hglue happ hM
    exact ⟨front ++ front', ext'', by simp [happ], hmem⟩

/-- What stops is completed with what would have come behind it. -/
theorem Completable.behind {f : Fault} (h : Completable (α := α) L s (.error f)) {t : Text}
    (ht : t ∈ M) : Completable (α := β) (L * M) s (.error f) := by
  obtain ⟨front, ext, happ, hmem⟩ := h
  exact ⟨front, ext ++ t, happ, by simpa using Language.append_mem_mul hmem ht⟩

/-- What goes on, and stops at once, is completed in the same way. -/
theorem Completable.stop {a : α} {c : Cause} (h : Completable L s (.ok (a, rest))) {t : Text}
    (ht : t ∈ M) : Completable (α := β) (L * M) s (.error ⟨c, rest⟩) :=
  h.append (completable_error ht c rest)

namespace Parser

variable {p : Parser α} {f : α → Parser β}

/-! ### Parsers -/

/-- **A sequence is completed part by part.** -/
theorem completable_bind {t : Text} (hp : Completable L s (p.run s)) (ht : t ∈ M)
    (hf : ∀ a rest, p.run s = .ok (a, rest) → Completable M rest ((f a).run rest)) :
    Completable (L * M) s ((p >>= f).run s) := by
  rw [run_bind]
  split
  · rename_i a rest hrun
    rw [hrun] at hp
    exact hp.append (hf a rest hrun)
  · rename_i e hrun
    rw [hrun] at hp
    exact hp.behind ht

theorem completable_pure (a : α) (s : Text) : Completable 1 s ((pure a : Parser α).run s) :=
  completable_ok (t := []) Language.nil_mem_one s

/-- What is done with an answer does not matter. -/
theorem completable_bind_pure (hp : Completable L s (p.run s)) (g : α → β) :
    Completable L s ((p >>= fun a => pure (g a)).run s) := by
  have h := completable_bind (f := fun a => pure (g a)) hp Language.nil_mem_one
    fun a rest _ => completable_pure (g a) rest
  rwa [mul_one] at h

theorem completable_skip (c : Char) (s : Text) :
    Completable {[c]} (c :: s) (skip.run (c :: s)) :=
  completable_ok (t := [c]) (Set.mem_singleton [c]) s

theorem completable_spelled (hp : Completable L s (p.run s)) :
    Completable L s (p.spelled.run s) := by
  simp only [spelled]
  split <;> rename_i hrun <;> rw [hrun] at hp <;> exact hp

theorem completable_lexeme {p : Parser Unit} (hp : Completable L s (p.run s)) :
    Completable L s (p.lexeme.run s) :=
  completable_bind_pure (completable_spelled hp) _

end Parser

/-! ### Slots -/

/-- The language of gaps. -/
def gaps : Language Char :=
  {g | Gap g}

theorem nil_mem_gaps : [] ∈ gaps :=
  Gap.nil

/-- Where a slot stops, a gap has been read and a slash stands. -/
theorem gap_of_passSlot_error {s : Text} {f : Fault} (h : passSlot s = .error f) :
    ∃ g, g ++ f.rest = s ∧ Gap g ∧ f.rest.head? = some '/' := by
  fun_induction passSlot s with
  | case1 s ih =>
    obtain ⟨g, hg, hgap, hslash⟩ := ih h
    refine ⟨'/' :: '/' :: ((Text.cutAtNewline s).1 ++ g), ?_, ?_, hslash⟩
    · simp [hg, Text.cutAtNewline_append]
    · rcases scan_lineComment_cut hg (by simp [hslash]) with hscan | ⟨-, -, hrest⟩
      · simpa [gap_iff_scan, hscan] using hgap
      · simp [hrest] at hslash
  | case2 s body after hcut ih =>
    obtain ⟨g, hg, hgap, hslash⟩ := ih h
    refine ⟨'/' :: '*' :: (body ++ g), ?_, ?_, hslash⟩
    · simp [hg, append_of_cutAtClose hcut]
    · simpa [gap_iff_scan, scan_blockComment hcut] using hgap
  | case3 s hcut =>
    obtain rfl := by simpa using h
    exact ⟨[], rfl, .nil, rfl⟩
  | case4 s _ _ =>
    obtain rfl := by simpa using h
    exact ⟨[], rfl, .nil, rfl⟩
  | case5 c s _ _ _ hc ih =>
    rw [isSpacing_eq] at hc
    obtain ⟨g, hg, hgap, hslash⟩ := ih h
    exact ⟨c :: g, by simp [hg], .blank hc hgap, hslash⟩
  | case6 => simp at h
  | case7 => simp at h

namespace Parser

/-- **A slot can be completed to a gap.** -/
theorem completable_slot (s : Text) : Completable gaps s (slot.run s) := by
  refine completable_lexeme ?_
  change Completable gaps s (passSlot s)
  cases h : passSlot s with
  | ok a =>
    obtain ⟨⟨⟩, rest⟩ := a
    obtain ⟨g, happ, ⟨hgap, -⟩ | ⟨hwhole, hrest⟩⟩ := gap_of_passSlot h
    · exact ⟨g, [], happ, by rwa [List.append_nil], Or.inr rfl⟩
    · exact ⟨g, ['\n'], happ, hwhole, Or.inl hrest⟩
  | error f =>
    obtain ⟨g, happ, hgap, -⟩ := gap_of_passSlot_error h
    exact ⟨g, [], happ, by rwa [List.append_nil]⟩

/-! ### Words and numbers -/

theorem completable_word (w s : Text) : Completable {w} s ((word w).run s) := by
  simp only [word]
  split
  · rename_i rest h
    rw [← Text.append_of_without? h]
    exact completable_ok (Set.mem_singleton w) rest
  · exact completable_error (Set.mem_singleton w) _ s

/-- Digits stop in front of what is none. -/
theorem run_digits_error {e : Expectation} {s : Text} {f : Fault}
    (h : (digits e).run s = .error f) : f = ⟨.unexpected e, s⟩ := by
  cases s with
  | nil => exact (Except.error.inj h).symm
  | cons c s =>
    by_cases hc : Text.isDigit c = true
    · simp [digits, hc] at h
    · rw [digits, run_bind, run_peek] at h
      simp only [List.head?_cons, hc] at h
      exact (Except.error.inj h).symm

theorem isDigits_zero : IsDigits ['0'] :=
  ⟨by simp, by simp [decimals]⟩

theorem completable_digits (e : Expectation) (s : Text) :
    Completable {t | IsDigits t} s ((digits e).run s) := by
  cases h : (digits e).run s with
  | ok a =>
    obtain ⟨⟨⟩, rest⟩ := a
    obtain ⟨t, rfl, ht⟩ := isDigits_of_run h
    exact completable_ok ht rest
  | error f =>
    obtain rfl := run_digits_error h
    exact completable_error isDigits_zero _ s

theorem completable_minus (s : Text) :
    Completable {t | t = [] ∨ t = ['-']} s (minus.run s) := by
  rw [minus, run_bind, run_peek]
  simp only
  split
  · rename_i h
    obtain ⟨s, rfl⟩ := List.head?_eq_some_iff.1 h
    exact (completable_skip '-' s).mono fun t ht => Or.inr ht
  · exact (completable_pure () s).mono fun t ht => Or.inl ht

theorem completable_integer (s : Text) : Completable {t | IsInteger t} s (integer.run s) := by
  cases h : integer.run s with
  | ok a =>
    obtain ⟨⟨⟩, rest⟩ := a
    obtain ⟨t, rfl, ht⟩ := isInteger_of_run h
    exact completable_ok ht rest
  | error f =>
    rw [integer, run_bind, run_peek] at h
    simp only at h
    split at h
    · simp at h
    · obtain rfl := run_digits_error h
      exact completable_error IsInteger.zero _ s

theorem completable_fraction (s : Text) : Completable {t | IsFraction t} s (fraction.run s) := by
  rw [fraction, run_bind, run_peek]
  simp only
  split
  · rename_i h
    obtain ⟨s, rfl⟩ := List.head?_eq_some_iff.1 h
    refine (completable_bind (completable_skip '.' s) isDigits_zero
      fun _ rest _ => completable_digits .fraction rest).mono ?_
    rintro _ ⟨_, rfl, t, ht, rfl⟩
    exact .point ht
  · exact (completable_pure () s).mono fun t ht => ht ▸ .absent

theorem completable_sign (s : Text) :
    Completable {t | t = [] ∨ t = ['+'] ∨ t = ['-']} s (sign.run s) := by
  rw [sign, run_bind, run_peek]
  simp only
  split
  · rename_i h
    rcases h with h | h <;> obtain ⟨s, rfl⟩ := List.head?_eq_some_iff.1 h
    · exact (completable_skip '+' s).mono fun t ht => Or.inr (Or.inl ht)
    · exact (completable_skip '-' s).mono fun t ht => Or.inr (Or.inr ht)
  · exact (completable_pure () s).mono fun t ht => Or.inl ht

theorem completable_exponent (s : Text) : Completable {t | IsExponent t} s (exponent.run s) := by
  rw [exponent, run_bind, run_peek]
  simp only
  split
  · rename_i h
    obtain ⟨e, s, rfl, he⟩ : ∃ e t, s = e :: t ∧ (e = 'e' ∨ e = 'E') := by
      rcases h with h | h <;> obtain ⟨t, rfl⟩ := List.head?_eq_some_iff.1 h
      · exact ⟨'e', t, rfl, Or.inl rfl⟩
      · exact ⟨'E', t, rfl, Or.inr rfl⟩
    have hnone : [] ∈ ({t | t = [] ∨ t = ['+'] ∨ t = ['-']} : Language Char) := Or.inl rfl
    refine (completable_bind (completable_skip e s) (Language.append_mem_mul hnone isDigits_zero)
      fun _ rest _ => completable_bind (completable_sign rest) isDigits_zero
        fun _ rest _ => completable_digits .exponent rest).mono ?_
    rintro _ ⟨_, rfl, _, ⟨sg, hsg, t, ht, rfl⟩, rfl⟩
    change IsExponent (e :: (sg ++ t))
    exact .mark he hsg ht
  · exact (completable_pure () s).mono fun t ht => ht ▸ .absent

/-- **A number can be completed.** -/
theorem completable_number (s : Text) : Completable {t | IsNumber t} s (number.run s) := by
  refine completable_lexeme ?_
  have hexp : [] ∈ ({t | IsExponent t} : Language Char) := IsExponent.absent
  have hfrac : [] ∈ ({t | IsFraction t} : Language Char) := IsFraction.absent
  have hint : ['0'] ∈ ({t | IsInteger t} : Language Char) := IsInteger.zero
  have htail := Language.append_mem_mul hfrac hexp
  refine (completable_bind (completable_minus s) (Language.append_mem_mul hint htail)
    fun _ s _ => completable_bind (completable_integer s) htail
      fun _ s _ => completable_bind (completable_fraction s) hexp
        fun _ s _ => completable_exponent s).mono ?_
  rintro _ ⟨sg, hsg, _, ⟨int, hint, _, ⟨frac, hfrac, exp, hexp, rfl⟩, rfl⟩, rfl⟩
  exact .mk hsg hint hfrac hexp

end Parser

/-! ### What literals are spelled with -/

/-- A spelling, whatever text it stands for. -/
def Spelled (s : Text) : Prop :=
  ∃ v, Spells s v

theorem IsUnit.length {t : Text} {u : Nat} (h : IsUnit t u) : t.length = 4 := by
  cases h
  rfl

theorem IsUnit.unique {t : Text} {u w : Nat} (h : IsUnit t u) (h' : IsUnit t w) : u = w := by
  have hread := (readUnit_append h []).symm.trans (readUnit_append h' [])
  exact congrArg Prod.fst (Except.ok.inj hread)

/-- Behind the escape of a low surrogate stands a spelling of its own. -/
theorem Spelled.of_lowSurrogate {t r : Text} {u : Nat} (ht : IsUnit t u)
    (hlow : IsLow u) (h : Spelled ('\\' :: 'u' :: (t ++ r))) : Spelled r := by
  obtain ⟨v, h⟩ := h
  generalize hs : '\\' :: 'u' :: (t ++ r) = s at h
  cases h with
  | nil => simp at hs
  | plain _ _ hslash _ => simp [← (List.cons.inj hs).1] at hslash
  | @short c d s v hshort _ =>
    obtain ⟨rfl, -⟩ := List.cons.inj (List.cons.inj hs).2
    simp at hshort
  | @unit t' u' s v hunit _ hs' =>
    obtain ⟨-, rfl⟩ := List.append_inj (List.cons.inj (List.cons.inj hs).2).2
      (ht.length.trans hunit.length.symm)
    exact ⟨v, hs'⟩
  | @pair t₁ t₂ high low s v hhigh hhigh' _ _ _ =>
    obtain ⟨rfl, -⟩ := List.append_inj (List.cons.inj (List.cons.inj hs).2).2
      (ht.length.trans hhigh.length.symm)
    obtain rfl := ht.unique hhigh
    exact absurd hhigh' hlow.not_isHigh

/-- The escape of any unit may stand in front of a spelling. -/
theorem Spelled.unit {t s : Text} {u : Nat} (ht : IsUnit t u) (h : Spelled s) :
    Spelled ('\\' :: 'u' :: (t ++ s)) := by
  by_cases hpair : IsHigh u ∧ LowSurrogateFirst s
  · -- the two escapes together denote one character
    obtain ⟨hhigh, t', low, r, rfl, ht', hlow⟩ := hpair
    obtain ⟨v, hr⟩ := h.of_lowSurrogate ht' hlow
    exact ⟨_, .pair ht hhigh ht' hlow hr⟩
  · obtain ⟨v, hs⟩ := h
    exact ⟨_, .unit ht hpair hs⟩

/-- What makes an escape with a backslash in front of it: whatever spelling is behind it, the
escape and that are a spelling. -/
def escaped : Language Char :=
  {t | ∀ s, Spelled s → Spelled ('\\' :: (t ++ s))}

/-- What ends a literal: a spelling and a quote. -/
def quoted : Language Char :=
  {t | ∃ body, t = body ++ ['"'] ∧ Spelled body}

/-- The digits of units. -/
def hexadecimals : Language Char :=
  {t | ∃ u, IsUnit t u}

/-- What a high surrogate is followed by: nothing that belongs to it, or the escape of a unit. -/
def followers : Language Char :=
  1 + {['\\', 'u']} * hexadecimals

theorem nil_mem_followers : [] ∈ followers :=
  Or.inl Language.nil_mem_one

/-- The spellings of literals. -/
def literals : Language Char :=
  {t | ∃ l, IsLiteral l ∧ l.raw = t}

theorem mem_hexadecimals : "0000".toList ∈ hexadecimals :=
  ⟨0, .mk (a := '0') (b := '0') (c := '0') (d := '0') rfl rfl rfl rfl⟩

theorem quote_mem_quoted : ['"'] ∈ quoted :=
  ⟨[], rfl, [], .nil⟩

namespace Parser

theorem completable_readUnit (s : Text) : Completable hexadecimals s (readUnit s) := by
  fun_cases readUnit s with
  | case1 a b c d rest x y z w hd hc hb ha =>
    rw [hexDigit?_eq] at ha hb hc hd
    have hunit : [a, b, c, d] ∈ hexadecimals := ⟨_, .mk ha hb hc hd⟩
    exact completable_ok hunit rest
  | case2 => exact completable_error mem_hexadecimals _ _
  | case3 => exact completable_error mem_hexadecimals _ _

/-- Behind a high surrogate there may be the escape of one more unit. -/
theorem completable_readLowSurrogate (s : Text) :
    Completable followers s (readLowSurrogate s) := by
  fun_cases readLowSurrogate s with
  | case1 rest low after h _ =>
    obtain ⟨t, rfl, ht⟩ := isUnit_of_readUnit h
    have hescape : '\\' :: 'u' :: t ∈ followers :=
      Or.inr ⟨['\\', 'u'], rfl, t, ⟨low, ht⟩, rfl⟩
    exact completable_ok hescape after
  | case2 rest low after h _ => exact completable_ok nil_mem_followers _
  | case3 rest e h =>
    have hunit := completable_readUnit rest
    rw [h] at hunit
    have hmark : Completable {['\\', 'u']} ('\\' :: 'u' :: rest) (.ok ((), rest)) :=
      completable_ok (Set.mem_singleton ['\\', 'u']) rest
    exact (hmark.append hunit).mono fun t ht => Or.inr ht
  | case4 => exact completable_ok nil_mem_followers s

/-- The digits of a unit, and maybe the escape of another one, make an escape. -/
theorem mem_escaped_of_units :
    ∀ t ∈ ({['u']} * (hexadecimals * followers) : Language Char), t ∈ escaped := by
  rintro _ ⟨_, rfl, _, ⟨t, ⟨u, ht⟩, r, hr, rfl⟩, rfl⟩ s hs
  rcases hr with rfl | ⟨_, rfl, t', ⟨u', ht'⟩, rfl⟩
  · simpa using hs.unit ht
  · simpa using (hs.unit ht').unit ht

theorem completable_unicodeEscape (s : Text) :
    Completable (hexadecimals * followers) s (unicodeEscape.run s) := by
  refine completable_bind (completable_readUnit s) nil_mem_followers fun high rest _ => ?_
  split
  · refine (completable_bind (completable_readLowSurrogate rest) Language.nil_mem_one
      fun low rest _ => ?_).mono fun t ht => by rwa [mul_one] at ht
    cases low with
    | some low => exact completable_pure _ rest
    | none => exact completable_pure _ rest
  · exact completable_ok nil_mem_followers rest

/-- **An escape can be completed.** -/
theorem completable_escape (s : Text) : Completable escaped s (escape.run s) := by
  have hshort {c d : Char} (h : escapes.lookup c = some d) : [c] ∈ escaped :=
    fun s ⟨v, hs⟩ => ⟨d :: v, .short h hs⟩
  have hn : ['n'] ∈ escaped := hshort (d := '\n') rfl
  rw [escape, run_bind, run_peek]
  cases s with
  | nil => exact completable_error hn _ []
  | cons c s =>
    simp only [List.head?_cons]
    split
    · rename_i d hd
      refine (completable_bind (completable_skip c s) Language.nil_mem_one
        fun _ rest _ => completable_pure d rest).mono ?_
      rintro _ ⟨_, rfl, _, rfl, rfl⟩
      exact hshort ((shortEscape?_eq c).symm.trans hd)
    · split
      · rename_i hu
        subst hu
        have hunit := Language.append_mem_mul mem_hexadecimals nil_mem_followers
        exact (completable_bind (completable_skip 'u' s) hunit
          fun _ rest _ => completable_unicodeEscape rest).mono mem_escaped_of_units
      · exact completable_error hn _ (c :: s)

/-! ### Literals -/

theorem completable_readBody (s : Text) : Completable quoted s (readBody s) := by
  have hescape : ∀ t ∈ ({['\\']} * (escaped * quoted) : Language Char), t ∈ quoted := by
    rintro _ ⟨_, rfl, _, ⟨t, ht, _, ⟨body, rfl, hbody⟩, rfl⟩, rfl⟩
    exact ⟨'\\' :: (t ++ body), by simp, ht body hbody⟩
  -- an escape, or a character that stands for itself, with what is read behind it
  have hbehind {rest c after} {x : Except Fault (Text × Text)}
      (h : escape.run rest = .ok (c, after)) (hx : Completable quoted after x) :
      Completable quoted ('\\' :: rest) x := by
    have hrun := completable_escape rest
    rw [h] at hrun
    exact ((completable_skip '\\' rest).append (hrun.append hx)).mono hescape
  have hplain {c rest} {x : Except Fault (Text × Text)} (hc : ¬c.toNat < 0x20) (hquote : c ≠ '"')
      (hslash : c ≠ '\\') (hx : Completable quoted rest x) : Completable quoted (c :: rest) x := by
    refine ((completable_skip c rest).append hx).mono ?_
    rintro _ ⟨_, rfl, _, ⟨body, rfl, v, hv⟩, rfl⟩
    exact ⟨c :: body, by simp, c :: v, .plain (by omega) hquote hslash hv⟩
  fun_induction readBody s with
  | case1 => exact completable_error quote_mem_quoted _ []
  | case2 rest => exact completable_ok quote_mem_quoted rest
  | case3 rest c after h cs left heq ih =>
    rw [heq] at ih
    exact hbehind h ih
  | case4 rest c after h e heq ih =>
    rw [heq] at ih
    exact hbehind h ih
  | case5 rest e h =>
    have hrun := completable_escape rest
    rw [h] at hrun
    exact ((completable_skip '\\' rest).append (hrun.behind quote_mem_quoted)).mono hescape
  | case6 c rest => exact completable_error quote_mem_quoted _ _
  | case7 c rest hquote hslash hc cs left heq ih =>
    rw [heq] at ih
    exact hplain hc (fun h => hquote h) (fun h => hslash h) ih
  | case8 c rest hquote hslash hc e heq ih =>
    rw [heq] at ih
    exact hplain hc (fun h => hquote h) (fun h => hslash h) ih

/-- **A literal can be completed.** -/
theorem completable_literal (s : Text) :
    Completable literals ('"' :: s) (literal.run ('"' :: s)) := by
  refine completable_bind_pure (completable_spelled ?_) _
  refine (completable_bind (completable_skip '"' s) quote_mem_quoted
    fun _ rest _ => completable_readBody rest).mono ?_
  rintro _ ⟨_, rfl, _, ⟨body, rfl, v, hv⟩, rfl⟩
  exact ⟨⟨v, '"' :: (body ++ ['"'])⟩, ⟨body, rfl, hv⟩, rfl⟩

end Parser

end EnvManifest
