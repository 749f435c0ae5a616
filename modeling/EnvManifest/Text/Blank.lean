import EnvManifest.Text.Basic

/-!
# Blank characters

A character is blank if it has the Unicode property `White_Space`. The property
holds of twenty-five characters, in ten ranges; a zero width space, a byte order
mark and the information separators are not among them. Trimming and the tests
for blank texts all go by this class, while the grammar of a document knows only
four of its members.
-/

namespace EnvManifest

/-- The ranges of code points with the property `White_Space`. -/
def blankRanges : List (Nat × Nat) :=
  [(0x9, 0xD), (0x20, 0x20), (0x85, 0x85), (0xA0, 0xA0), (0x1680, 0x1680),
   (0x2000, 0x200A), (0x2028, 0x2029), (0x202F, 0x202F), (0x205F, 0x205F),
   (0x3000, 0x3000)]

/-- Whether a character is blank. -/
def isBlank (c : Char) : Bool :=
  blankRanges.any fun (first, last) => first ≤ c.toNat && c.toNat ≤ last

/-- Every character that core calls whitespace is blank. -/
theorem isBlank_of_isWhitespace {c : Char} (h : c.isWhitespace = true) : isBlank c = true := by
  simp only [Char.isWhitespace, Bool.or_eq_true, decide_eq_true_eq] at h
  rcases h with ((rfl | rfl) | rfl) | rfl <;> decide

/-- The ranges hold twenty-five characters. -/
theorem blankRanges_size : blankRanges.foldr (fun r n => r.2 - r.1 + 1 + n) 0 = 25 := by decide

namespace Text

/-- The text without blank characters at its end. -/
def trimEnd (s : Text) : Text :=
  s.dropEndWhile isBlank

/-- The text without blank characters at either end. -/
def trim (s : Text) : Text :=
  trimEnd (s.dropWhile isBlank)

/-- Whether a text has nothing but blank characters. -/
def allBlank (s : Text) : Bool :=
  s.all isBlank

end Text

end EnvManifest
