import EnvManifest.Document.Parser.Number
import EnvManifest.Proofs.Grammar
import EnvManifest.Proofs.Reading.Slot

/-!
# Reading numbers

Each part of a number is read as far as its grammar goes, and no further: what is
passed over is a part (`Parser.isInteger_of_run`, …), and a part is passed over if what
follows cannot lengthen it (`Parser.run_integer`, …). Both sides are put together in
`Parser.isNumber_of_run` and `Parser.run_number`; what must not follow a number is in
`NumberEnd`.
-/

namespace EnvManifest

/-- A text that no number goes on into. -/
def NumberEnd (s : Text) : Prop :=
  ∀ c ∈ s.head?, Text.isDigit c = false ∧ c ≠ '.' ∧ c ≠ 'e' ∧ c ≠ 'E'

/-- A text that does not begin with a digit. -/
def NoDigit (s : Text) : Prop :=
  ∀ c ∈ s.head?, Text.isDigit c = false

theorem NumberEnd.noDigit {s : Text} (h : NumberEnd s) : NoDigit s :=
  fun c hc => (h c hc).1

theorem IsDigits.head {s : Text} (h : IsDigits s) : ∃ c t, s = c :: t ∧ Text.isDigit c = true := by
  obtain ⟨hne, hall⟩ := h
  cases s with
  | nil => exact absurd rfl hne
  | cons c t => exact ⟨c, t, rfl, isDigit_iff.2 (hall c List.mem_cons_self)⟩

theorem IsInteger.head {s : Text} (h : IsInteger s) :
    ∃ c t, s = c :: t ∧ Text.isDigit c = true := by
  cases h with
  | zero => exact ⟨'0', [], rfl, rfl⟩
  | digits h _ => exact h.head

theorem NumberEnd.noExponent {s : Text} (h : NumberEnd s) :
    s.head? ≠ some 'e' ∧ s.head? ≠ some 'E' :=
  ⟨fun he => (h 'e' he).2.2.1 rfl, fun he => (h 'E' he).2.2.2 rfl⟩

/-- An exponent, or what follows where there is none, does not lengthen a fraction. -/
theorem IsExponent.follows {s rest : Text} (h : IsExponent s) (hrest : NumberEnd rest) :
    NoDigit (s ++ rest) ∧ (s ++ rest).head? ≠ some '.' := by
  cases h with
  | absent => exact ⟨hrest.noDigit, fun hp => (hrest '.' hp).2.1 rfl⟩
  | @mark e t ds he _ _ =>
    rcases he with rfl | rfl <;> simp [NoDigit, Text.isDigit]

/-- A fraction, or what follows where there is none, does not lengthen an integer. -/
theorem IsFraction.follows {s rest : Text} (h : IsFraction s) (hrest : NoDigit rest) :
    NoDigit (s ++ rest) := by
  cases h with
  | absent => exact hrest
  | point _ => simp [NoDigit, Text.isDigit]

/-- A number has digits, signs, a point and the mark of an exponent in it, and nothing else. -/
theorem IsNumber.not_mem {t : Text} (h : IsNumber t) {c : Char} (hdigit : Text.isDigit c = false)
    (hmark : c ∉ ['-', '+', '.', 'e', 'E']) : c ∉ t := by
  simp only [List.mem_cons, List.not_mem_nil, or_false, not_or] at hmark
  obtain ⟨hminus, hplus, hpoint, he, hE⟩ := hmark
  obtain ⟨hsign, hint, hfrac, hexp⟩ := h
  have hdigits : ∀ {s : Text}, IsDigits s → c ∉ s := by
    intro s hs hmem
    rw [isDigit_iff.2 (hs.2 c hmem)] at hdigit
    simp at hdigit
  simp only [List.mem_append, not_or]
  refine ⟨?_, ?_, ?_, ?_⟩
  · rcases hsign with rfl | rfl <;> simp [hminus]
  · cases hint with
    | zero =>
      refine List.not_mem_cons_of_ne_of_not_mem ?_ List.not_mem_nil
      rintro rfl
      simp [Text.isDigit] at hdigit
    | digits h _ => exact hdigits h
  · cases hfrac with
    | absent => simp
    | point h => simp [hpoint, hdigits h]
  · cases hexp with
    | absent => simp
    | mark hmark hsign h =>
      rcases hmark with rfl | rfl <;> rcases hsign with rfl | rfl | rfl <;>
        simp [hdigits h, hminus, hplus, he, hE]

namespace Parser

/-! ### Digits -/

theorem run_digits {s rest : Text} (h : IsDigits s) (hrest : NoDigit rest) (e : Expectation) :
    (digits e).run (s ++ rest) = .ok ((), rest) := by
  have hdrop : (s ++ rest).dropWhile Text.isDigit = rest := by
    rw [List.dropWhile_append_of_pos fun c hc => isDigit_iff.2 (h.2 c hc)]
    cases rest with
    | nil => rfl
    | cons c rest => simp [hrest c rfl]
  obtain ⟨c, t, rfl, hc⟩ := h.head
  simpa [digits, hc] using hdrop

theorem isDigits_of_run {s rest : Text} {e : Expectation}
    (h : (digits e).run s = .ok ((), rest)) : ∃ t, t ++ rest = s ∧ IsDigits t := by
  cases s with
  | nil => simp [digits] at h
  | cons c s =>
    by_cases hc : Text.isDigit c = true
    · obtain rfl : s.dropWhile Text.isDigit = rest := by simpa [digits, hc] using h
      refine ⟨c :: s.takeWhile Text.isDigit, by simp, by simp, fun d hd => ?_⟩
      rcases List.mem_cons.1 hd with rfl | hd
      · exact isDigit_iff.1 hc
      · exact isDigit_iff.1 (List.all_eq_true.1 List.all_takeWhile d hd)
    · simp [digits, hc] at h

/-! ### The parts of a number -/

theorem run_minus {sign rest : Text} (h : sign = [] ∨ sign = ['-']) (hrest : rest.head? ≠ some '-') :
    minus.run (sign ++ rest) = .ok ((), rest) := by
  rcases h with rfl | rfl
  · simp [minus, hrest]
  · simp [minus]

theorem sign_of_run_minus {s rest : Text} (h : minus.run s = .ok ((), rest)) :
    ∃ sign, sign ++ rest = s ∧ (sign = [] ∨ sign = ['-']) := by
  by_cases hs : s.head? = some '-'
  · obtain ⟨t, rfl⟩ := List.head?_eq_some_iff.1 hs
    obtain rfl : t = rest := by simpa [minus] using h
    exact ⟨['-'], rfl, Or.inr rfl⟩
  · obtain rfl : s = rest := by simpa [minus, hs] using h
    exact ⟨[], rfl, Or.inl rfl⟩

theorem run_integer {s rest : Text} (h : IsInteger s) (hrest : NoDigit rest) :
    integer.run (s ++ rest) = .ok ((), rest) := by
  cases h with
  | zero => simp [integer]
  | digits h hzero =>
    have hhead : (s ++ rest).head? ≠ some '0' := by
      obtain ⟨c, t, rfl, -⟩ := h.head
      simpa using hzero
    rw [integer, run_bind, run_peek]
    simp only [hhead, if_false]
    exact run_digits h hrest _

theorem isInteger_of_run {s rest : Text} (h : integer.run s = .ok ((), rest)) :
    ∃ t, t ++ rest = s ∧ IsInteger t := by
  by_cases hs : s.head? = some '0'
  · obtain ⟨t, rfl⟩ := List.head?_eq_some_iff.1 hs
    obtain rfl : t = rest := by simpa [integer] using h
    exact ⟨['0'], rfl, .zero⟩
  · have hdigits : (digits .integer).run s = .ok ((), rest) := by simpa [integer, hs] using h
    obtain ⟨t, rfl, ht⟩ := isDigits_of_run hdigits
    refine ⟨t, rfl, .digits ht fun hzero => hs ?_⟩
    obtain ⟨r, rfl⟩ := List.head?_eq_some_iff.1 hzero
    rfl

theorem run_fraction {s rest : Text} (h : IsFraction s) (hdigit : NoDigit rest)
    (hpoint : rest.head? ≠ some '.') : fraction.run (s ++ rest) = .ok ((), rest) := by
  cases h with
  | absent => simp [fraction, hpoint]
  | point h => simpa [fraction] using run_digits h hdigit _

theorem isFraction_of_run {s rest : Text} (h : fraction.run s = .ok ((), rest)) :
    ∃ t, t ++ rest = s ∧ IsFraction t := by
  by_cases hs : s.head? = some '.'
  · obtain ⟨t, rfl⟩ := List.head?_eq_some_iff.1 hs
    obtain ⟨t, rfl, ht⟩ := isDigits_of_run (s := t) (by simpa [fraction] using h)
    exact ⟨'.' :: t, rfl, .point ht⟩
  · obtain rfl : s = rest := by simpa [fraction, hs] using h
    exact ⟨[], rfl, .absent⟩

theorem run_sign {s rest : Text} (h : s = [] ∨ s = ['+'] ∨ s = ['-'])
    (hrest : rest.head? ≠ some '+' ∧ rest.head? ≠ some '-') :
    sign.run (s ++ rest) = .ok ((), rest) := by
  rcases h with rfl | rfl | rfl
  · simp [sign, hrest]
  · simp [sign]
  · simp [sign]

theorem sign_of_run {s rest : Text} (h : sign.run s = .ok ((), rest)) :
    ∃ t, t ++ rest = s ∧ (t = [] ∨ t = ['+'] ∨ t = ['-']) := by
  by_cases hs : s.head? = some '+' ∨ s.head? = some '-'
  · rcases hs with hs | hs
    · obtain ⟨t, rfl⟩ := List.head?_eq_some_iff.1 hs
      obtain rfl : t = rest := by simpa [sign] using h
      exact ⟨['+'], rfl, Or.inr (Or.inl rfl)⟩
    · obtain ⟨t, rfl⟩ := List.head?_eq_some_iff.1 hs
      obtain rfl : t = rest := by simpa [sign] using h
      exact ⟨['-'], rfl, Or.inr (Or.inr rfl)⟩
  · obtain rfl : s = rest := by simpa [sign, hs] using h
    exact ⟨[], rfl, Or.inl rfl⟩

theorem run_exponent {s rest : Text} (h : IsExponent s) (hdigit : NoDigit rest)
    (hmark : rest.head? ≠ some 'e' ∧ rest.head? ≠ some 'E') :
    exponent.run (s ++ rest) = .ok ((), rest) := by
  cases h with
  | absent => simp [exponent, hmark]
  | @mark e t ds he ht hds =>
    have hsign : sign.run (t ++ (ds ++ rest)) = .ok ((), ds ++ rest) := by
      refine run_sign ht ?_
      obtain ⟨c, r, rfl, hc⟩ := hds.head
      constructor <;> rintro hhead <;> obtain rfl := by simpa using hhead
      · simp [Text.isDigit] at hc
      · simp [Text.isDigit] at hc
    have hrun := run_digits hds hdigit .exponent
    simp [exponent, he, hsign, hrun]

theorem isExponent_of_run {s rest : Text} (h : exponent.run s = .ok ((), rest)) :
    ∃ t, t ++ rest = s ∧ IsExponent t := by
  by_cases hs : s.head? = some 'e' ∨ s.head? = some 'E'
  · obtain ⟨e, t, rfl, he⟩ : ∃ e t, s = e :: t ∧ (e = 'e' ∨ e = 'E') := by
      rcases hs with hs | hs <;> obtain ⟨t, rfl⟩ := List.head?_eq_some_iff.1 hs
      · exact ⟨'e', t, rfl, Or.inl rfl⟩
      · exact ⟨'E', t, rfl, Or.inr rfl⟩
    have hrun : (sign >>= fun _ => digits .exponent).run t = .ok ((), rest) := by
      simpa [exponent, he] using h
    obtain ⟨⟨⟩, t', hsign, hdigits⟩ := run_bind_eq_ok.1 hrun
    obtain ⟨sg, rfl, hsg⟩ := sign_of_run hsign
    obtain ⟨ds, rfl, hds⟩ := isDigits_of_run hdigits
    exact ⟨e :: (sg ++ ds), by simp, .mark he hsg hds⟩
  · obtain rfl : s = rest := by simpa [exponent, hs] using h
    exact ⟨[], rfl, .absent⟩

/-! ### Numbers -/

/-- **A number is read to its end.** -/
theorem run_number {t rest : Text} (h : IsNumber t) (hrest : NumberEnd rest) :
    number.run (t ++ rest) = .ok (t, rest) := by
  cases h with
  | @mk sg int frac exp hsg hint hfrac hexp =>
    obtain ⟨hexpDigit, hexpPoint⟩ := hexp.follows hrest
    have hintMinus : (int ++ (frac ++ (exp ++ rest))).head? ≠ some '-' := by
      obtain ⟨c, r, rfl, hc⟩ := hint.head
      rintro hhead
      obtain rfl := by simpa using hhead
      simp [Text.isDigit] at hc
    refine run_lexeme_eq_ok.2 ⟨?_, rfl⟩
    simp only [List.append_assoc]
    rw [run_bind_of_eq (run_minus hsg hintMinus),
      run_bind_of_eq (run_integer hint (hfrac.follows hexpDigit)),
      run_bind_of_eq (run_fraction hfrac hexpDigit hexpPoint)]
    exact run_exponent hexp hrest.noDigit hrest.noExponent

/-- **What is read as a number is one.** -/
theorem isNumber_of_run {s t rest : Text} (h : number.run s = .ok (t, rest)) :
    t ++ rest = s ∧ IsNumber t := by
  obtain ⟨hrun, happ⟩ := run_lexeme_eq_ok.1 h
  obtain ⟨⟨⟩, s₁, hminus, hrun⟩ := run_bind_eq_ok.1 hrun
  obtain ⟨⟨⟩, s₂, hint, hrun⟩ := run_bind_eq_ok.1 hrun
  obtain ⟨⟨⟩, s₃, hfrac, hexp⟩ := run_bind_eq_ok.1 hrun
  obtain ⟨sg, rfl, hsg⟩ := sign_of_run_minus hminus
  obtain ⟨int, rfl, hint'⟩ := isInteger_of_run hint
  obtain ⟨frac, rfl, hfrac'⟩ := isFraction_of_run hfrac
  obtain ⟨exp, rfl, hexp'⟩ := isExponent_of_run hexp
  obtain rfl : t = sg ++ (int ++ (frac ++ exp)) :=
    List.append_cancel_right (by simpa using happ)
  exact ⟨happ, .mk hsg hint' hfrac' hexp'⟩

end Parser

end EnvManifest
