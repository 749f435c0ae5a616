import EnvManifest.Document.Parser.Literal
import EnvManifest.Document.Parser.Slot

/-!
# The terminals of the grammar

What the grammar of documents is built on, written out character by character: the blanks,
the digits and what they stand for, the escapes of one letter, and the UTF-16 units with the
characters that they stand for. Nothing here is defined by what a reader does. A reader has
tables of its own, and there is one statement a table that it is the one of the grammar
(`isSpacing_eq`, `isDigit_iff`, `hexDigit?_eq`, `shortEscape?_eq`, `unitChar_eq`,
`pairChar_eq`); only the proofs that follow a reader step by step need them.
-/

namespace EnvManifest

/-! ### Blanks -/

/-- Whether a character is a blank: a space, a tab, a line feed or a carriage return. -/
def isWhite (c : Char) : Bool :=
  [' ', '\t', '\n', '\r'].contains c

theorem isWhite_iff {c : Char} : isWhite c = true ↔ c = ' ' ∨ c = '\t' ∨ c = '\n' ∨ c = '\r' := by
  simp [isWhite]

theorem isSpacing_eq (c : Char) : isSpacing c = isWhite c := by
  rw [Bool.eq_iff_iff, isWhite_iff]
  simp [isSpacing, or_assoc]

/-- A blank opens neither a literal nor a comment. -/
theorem ne_of_isWhite {c : Char} (h : isWhite c = true) : c ≠ '"' ∧ c ≠ '/' := by
  rcases isWhite_iff.1 h with rfl | rfl | rfl | rfl <;> decide

/-! ### Digits -/

/-- The decimal digits, in the order of what they stand for. -/
def decimals : Text :=
  ['0', '1', '2', '3', '4', '5', '6', '7', '8', '9']

/-- What a hexadecimal digit stands for: its place among the sixteen, in one case or the other. -/
def hexValue? (c : Char) : Option Nat :=
  (decimals ++ ['a', 'b', 'c', 'd', 'e', 'f']).idxOf? c <|>
    (decimals ++ ['A', 'B', 'C', 'D', 'E', 'F']).idxOf? c

/-- A hexadecimal digit is none of the characters that stand for nothing. -/
theorem ne_of_hexValue? {c d : Char} {n : Nat} (hc : hexValue? c = some n)
    (hd : hexValue? d = none) : c ≠ d := by
  rintro rfl
  simp [hc] at hd

/-- What holds of every character of ASCII, and of every other character, holds of all. -/
theorem forall_char {P : Char → Prop} (hascii : ∀ n < 0x80, P (Char.ofNat n))
    (hother : ∀ c : Char, 0x80 ≤ c.toNat → P c) (c : Char) : P c := by
  rcases Nat.lt_or_ge c.toNat 0x80 with hc | hc
  · simpa [Char.ofNat_toNat] using hascii c.toNat hc
  · exact hother c hc

section Other

variable {c : Char} (hc : 0x80 ≤ c.toNat)
include hc

/-- A character that is not of ASCII is behind those that are. -/
theorem not_le_of_ascii {d : Char} (hd : d.toNat < 0x80) : ¬c ≤ d := by
  intro hle
  have hle : c.toNat ≤ d.toNat := hle
  omega

theorem not_mem_of_ascii {s : Text} (hs : s.all (fun d => d.toNat < 0x80) = true) : c ∉ s := by
  intro hmem
  have hlt : c.toNat < 0x80 := of_decide_eq_true (List.all_eq_true.1 hs c hmem)
  omega

theorem hexValue?_eq_none : hexValue? c = none := by
  rw [hexValue?, List.idxOf?_eq_none_iff.2 (not_mem_of_ascii hc (by decide)),
    List.idxOf?_eq_none_iff.2 (not_mem_of_ascii hc (by decide))]
  rfl

end Other

theorem isDigit_iff {c : Char} : Text.isDigit c = true ↔ c ∈ decimals := by
  refine forall_char (P := fun c => Text.isDigit c = true ↔ c ∈ decimals) (by decide) ?_ c
  intro c hc
  have hmem : c ∉ decimals := not_mem_of_ascii hc (by decide)
  have hle : ¬c ≤ '9' := not_le_of_ascii hc (by decide)
  simp [Text.isDigit, hmem, hle]

theorem hexDigit?_eq (c : Char) : Text.hexDigit? c = hexValue? c := by
  refine forall_char (P := fun c => Text.hexDigit? c = hexValue? c) (by decide) ?_ c
  intro c hc
  have hle : ∀ d : Char, d.toNat < 0x80 → ¬c ≤ d := fun d hd => not_le_of_ascii hc hd
  rw [hexValue?_eq_none hc, Text.hexDigit?]
  simp [hle]

/-! ### Escapes of one letter -/

/-- The letters of the escapes, and what each of them stands for. -/
def escapes : List (Char × Char) :=
  [('"', '"'), ('\\', '\\'), ('/', '/'), ('b', '\x08'), ('f', '\x0c'), ('n', '\n'), ('r', '\r'),
    ('t', '\t')]

/-- What introduces the escape of a unit is no letter of a shorter one. -/
@[simp]
theorem lookup_escapes_u : escapes.lookup 'u' = none := rfl

theorem shortEscape?_eq (c : Char) : shortEscape? c = escapes.lookup c := by
  fun_cases shortEscape? c with
  | case9 =>
    symm
    rw [List.lookup_eq_none_iff]
    simp_all [escapes]
  | _ => rfl

/-! ### Units -/

/-- The first half of a surrogate pair. -/
def IsHigh (u : Nat) : Prop :=
  0xD800 ≤ u ∧ u ≤ 0xDBFF

/-- The second half of a surrogate pair. -/
def IsLow (u : Nat) : Prop :=
  0xDC00 ≤ u ∧ u ≤ 0xDFFF

instance (u : Nat) : Decidable (IsHigh u) :=
  inferInstanceAs (Decidable (_ ∧ _))

instance (u : Nat) : Decidable (IsLow u) :=
  inferInstanceAs (Decidable (_ ∧ _))

theorem IsLow.not_isHigh {u : Nat} (h : IsLow u) : ¬IsHigh u := by
  simp only [IsLow, IsHigh] at h ⊢
  omega

/-- The character that a unit by itself stands for: U+FFFD if it is half of a pair. -/
def aloneChar (u : Nat) : Char :=
  if IsHigh u ∨ IsLow u then '\ufffd' else Char.ofNat u

/-- No character is half of a pair. -/
theorem not_surrogate (c : Char) : ¬IsHigh c.toNat ∧ ¬IsLow c.toNat := by
  have hvalid : c.toNat < 0xD800 ∨ 0xDFFF < c.toNat ∧ c.toNat < 0x110000 := c.valid
  simp only [IsHigh, IsLow]
  omega

theorem aloneChar_toNat (c : Char) : aloneChar c.toNat = c := by
  obtain ⟨hhigh, hlow⟩ := not_surrogate c
  rw [aloneChar, if_neg (by simp [hhigh, hlow]), Char.ofNat_toNat]

/-- The character that a pair stands for: ten bits from each half, above the characters of one
unit. -/
def pairedChar (high low : Nat) : Char :=
  Char.ofNat (0x10000 + (high % 0x400 * 0x400 + low % 0x400))

theorem isHighSurrogate_iff {u : Nat} : isHighSurrogate u = true ↔ IsHigh u := by
  simp only [isHighSurrogate, IsHigh, Bool.and_eq_true, decide_eq_true_eq]
  omega

theorem isLowSurrogate_iff {u : Nat} : isLowSurrogate u = true ↔ IsLow u := by
  simp only [isLowSurrogate, IsLow, Bool.and_eq_true, decide_eq_true_eq]
  omega

theorem unitChar_eq (u : Nat) : unitChar u = aloneChar u := by
  simp only [unitChar, aloneChar, Bool.or_eq_true, isHighSurrogate_iff, isLowSurrogate_iff]
  rfl

theorem pairChar_eq {high low : Nat} (hhigh : IsHigh high) (hlow : IsLow low) :
    pairChar high low = pairedChar high low := by
  have hbits : 0x10000 + (high - 0xD800) * 0x400 + (low - 0xDC00) =
      0x10000 + (high % 0x400 * 0x400 + low % 0x400) := by
    simp only [IsHigh, IsLow] at hhigh hlow
    omega
  rw [pairChar, pairedChar, hbits]

end EnvManifest
