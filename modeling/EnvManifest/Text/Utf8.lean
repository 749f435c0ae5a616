import EnvManifest.Text.Basic

/-!
# Texts as octets

A document is kept in files and hashed as the octets of its UTF-8 encoding.
`Text.utf8` writes the octets of a text; `Text.ofUtf8` reads a text back, and on
octets that are no encoding of any text says how many of them were still good
(`Text.ofUtf8_utf8`: what was written is read back). The octets of one character
are core's; a text is read one first character at a time.
-/

namespace EnvManifest

/-- A sequence of octets. -/
abbrev Octets := List UInt8

namespace Text

/-- The octets of a text in UTF-8. -/
def utf8 (s : Text) : Octets :=
  s.flatMap String.utf8EncodeChar

/-- The number of octets of a text in UTF-8. -/
def utf8Length (s : Text) : Nat :=
  s.foldr (fun c n => c.utf8Size + n) 0

/-- The character whose encoding the octets begin with. -/
def firstChar? (b : Octets) : Option Char :=
  (b.take 4).toByteArray.utf8DecodeChar? 0

/-- The text that the octets encode, or the number of octets in front of the
first ill-formed sequence. -/
def ofUtf8 (b : Octets) : Except Nat Text :=
  if b.isEmpty then .ok []
  else match firstChar? b with
    | none => .error 0
    | some c =>
      match ofUtf8 (b.drop c.utf8Size) with
      | .ok s => .ok (c :: s)
      | .error n => .error (c.utf8Size + n)
termination_by b.length
decreasing_by
  have hpos := c.utf8Size_pos
  rename_i h
  cases b with
  | nil => simp at h
  | cons => simp only [List.length_drop, List.length_cons]; omega

@[simp]
theorem utf8_nil : utf8 [] = [] := rfl

@[simp]
theorem utf8_cons (c : Char) (s : Text) : utf8 (c :: s) = String.utf8EncodeChar c ++ utf8 s := rfl

theorem utf8_append (s t : Text) : utf8 (s ++ t) = utf8 s ++ utf8 t := by
  simp [utf8]

/-- The length counted character by character is that of the octets. -/
theorem length_utf8 (s : Text) : (utf8 s).length = utf8Length s := by
  induction s with
  | nil => rfl
  | cons c s ih => simp [utf8Length, ih, String.length_utf8EncodeChar]

/-- Octets that begin with the encoding of a character begin with that
character. -/
theorem firstChar?_utf8EncodeChar_append (c : Char) (b : Octets) :
    firstChar? (String.utf8EncodeChar c ++ b) = some c := by
  have hsize : (String.utf8EncodeChar c).length ≤ 4 := by
    rw [String.length_utf8EncodeChar]
    exact c.utf8Size_le_four
  rw [firstChar?, List.take_append, List.take_of_length_le hsize, List.toByteArray_append,
    ← List.utf8Encode_singleton]
  exact List.utf8DecodeChar?_utf8Encode_singleton_append

/-- **What is written is read back.** -/
theorem ofUtf8_utf8 (s : Text) : ofUtf8 (utf8 s) = .ok s := by
  induction s with
  | nil => simp [ofUtf8]
  | cons c s ih =>
    have hne : (utf8 (c :: s)).isEmpty = false := by
      have hpos := c.utf8Size_pos
      rw [← String.length_utf8EncodeChar] at hpos
      rw [utf8_cons]
      cases hc : String.utf8EncodeChar c with
      | nil => simp [hc] at hpos
      | cons => rfl
    have hdrop : (utf8 (c :: s)).drop c.utf8Size = utf8 s := by
      rw [utf8_cons, ← String.length_utf8EncodeChar, List.drop_left]
    rw [ofUtf8, hne, if_neg Bool.false_ne_true]
    rw [utf8_cons, firstChar?_utf8EncodeChar_append]
    rw [utf8_cons] at hdrop
    simp only [hdrop, ih]

end Text

end EnvManifest
