import EnvManifest.Document.Literal
import EnvManifest.Proofs.Gap.Basic

/-!
# The grammar of documents

What a document is, said without a parser: a relation between a text and the
`Outline` of the value that it spells. An outline has the members, elements and
literals of a derivation in order and nothing of the gaps between them.

`IsDocument` is a value between two gaps. A value is a leaf, or a composite whose
children are values; `IsValue d` lets objects and arrays nest up to `d` deep, so that
it is defined by recursion on `d`, and a document nests up to 128 deep. What stands
between two brackets is a gap, or a list of children with commas between them and
possibly one behind the last (`Listed`).

Numbers are kept as they are spelled. A literal has the text it stands for beside its
spelling, and `Spells` says how the one comes from the other: the escape of a high
surrogate in front of that of a low one stands for one character, and any other
surrogate for U+FFFD.
-/

namespace EnvManifest

/-! ### Numbers -/

/-- At least one digit. -/
def IsDigits (s : Text) : Prop :=
  s ≠ [] ∧ ∀ c ∈ s, c ∈ decimals

/-- An integer part: zero, or digits that do not begin with zero. -/
inductive IsInteger : Text → Prop
  | zero : IsInteger ['0']
  | digits {s : Text} : IsDigits s → s.head? ≠ some '0' → IsInteger s

/-- A fraction with its point, or nothing. -/
inductive IsFraction : Text → Prop
  | absent : IsFraction []
  | point {s : Text} : IsDigits s → IsFraction ('.' :: s)

/-- An exponent with its mark and its sign, or nothing. -/
inductive IsExponent : Text → Prop
  | absent : IsExponent []
  | mark {e : Char} {sign s : Text} : e = 'e' ∨ e = 'E' → sign = [] ∨ sign = ['+'] ∨ sign = ['-'] →
      IsDigits s → IsExponent (e :: (sign ++ s))

/-- The spelling of a number. -/
inductive IsNumber : Text → Prop
  | mk {sign int frac exp : Text} : sign = [] ∨ sign = ['-'] → IsInteger int → IsFraction frac →
      IsExponent exp → IsNumber (sign ++ (int ++ (frac ++ exp)))

/-! ### Literals -/

/-- Four hexadecimal digits and the unit that they stand for. -/
inductive IsUnit : Text → Nat → Prop
  | mk {a b c d : Char} {x y z w : Nat} : hexValue? a = some x → hexValue? b = some y →
      hexValue? c = some z → hexValue? d = some w →
      IsUnit [a, b, c, d] (((x * 16 + y) * 16 + z) * 16 + w)

/-- A text that begins with the escape of a low surrogate. -/
def LowSurrogateFirst (s : Text) : Prop :=
  ∃ t u r, s = '\\' :: 'u' :: (t ++ r) ∧ IsUnit t u ∧ IsLow u

/-- What stands between the quotes of a literal, and the text it stands for. -/
inductive Spells : Text → Text → Prop
  | nil : Spells [] []
  | plain {c : Char} {s v : Text} : 0x20 ≤ c.toNat → c ≠ '"' → c ≠ '\\' → Spells s v →
      Spells (c :: s) (c :: v)
  | short {c d : Char} {s v : Text} : escapes.lookup c = some d → Spells s v →
      Spells ('\\' :: c :: s) (d :: v)
  | unit {t : Text} {u : Nat} {s v : Text} : IsUnit t u →
      ¬(IsHigh u ∧ LowSurrogateFirst s) → Spells s v →
      Spells ('\\' :: 'u' :: (t ++ s)) (aloneChar u :: v)
  | pair {t₁ t₂ : Text} {high low : Nat} {s v : Text} : IsUnit t₁ high → IsHigh high →
      IsUnit t₂ low → IsLow low → Spells s v →
      Spells ('\\' :: 'u' :: (t₁ ++ '\\' :: 'u' :: (t₂ ++ s))) (pairedChar high low :: v)

/-- A literal that is spelled as the text it stands for. -/
def IsLiteral (l : Literal) : Prop :=
  ∃ body, l.raw = '"' :: (body ++ ['"']) ∧ Spells body l.value

/-! ### Values -/

/-- The members, elements and literals of a value, in order. -/
inductive Outline where
  | null
  | bool (b : Bool)
  | number (spelling : Text)
  | string (literal : Literal)
  | object (members : List (Literal × Outline))
  | array (elements : List Outline)

/-- The value of a leaf. -/
inductive IsLeaf : Outline → Text → Prop
  | null : IsLeaf .null "null".toList
  | true : IsLeaf (.bool true) "true".toList
  | false : IsLeaf (.bool false) "false".toList
  | number {t : Text} : IsNumber t → IsLeaf (.number t) t
  | string {l : Literal} : IsLiteral l → IsLeaf (.string l) l.raw

/-- An element with its gaps, `inner` being what its value may be. -/
inductive IsElement (inner : Outline → Text → Prop) : Outline → Text → Prop
  | mk {o : Outline} {g₁ u g₂ : Text} : Gap g₁ → inner o u → Gap g₂ →
      IsElement inner o (g₁ ++ (u ++ g₂))

/-- A member with its gaps, `inner` being what its value may be. -/
inductive IsMember (inner : Outline → Text → Prop) : Literal × Outline → Text → Prop
  | mk {l : Literal} {o : Outline} {g₁ g₂ g₃ u g₄ : Text} : Gap g₁ → IsLiteral l → Gap g₂ →
      Gap g₃ → inner o u → Gap g₄ →
      IsMember inner (l, o) (g₁ ++ (l.raw ++ (g₂ ++ ':' :: (g₃ ++ (u ++ g₄)))))

/-- What is listed between two brackets: at least one thing, commas between, and
possibly one more comma with a gap behind it. -/
inductive Listed {α : Type} (P : α → Text → Prop) : List α → Text → Prop
  | last {a : α} {s : Text} : P a s → Listed P [a] s
  | trailing {a : α} {s g : Text} : P a s → Gap g → Listed P [a] (s ++ ',' :: g)
  | cons {a : α} {as : List α} {s t : Text} : P a s → Listed P as t →
      Listed P (a :: as) (s ++ ',' :: t)

/-- What stands between two brackets: a gap or a list. -/
inductive Bracketed {α : Type} (P : α → Text → Prop) : List α → Text → Prop
  | empty {g : Text} : Gap g → Bracketed P [] g
  | listed {as : List α} {s : Text} : Listed P as s → Bracketed P as s

/-- An object or an array, `inner` being what the values in it may be. -/
inductive IsComposite (inner : Outline → Text → Prop) : Outline → Text → Prop
  | object {ms : List (Literal × Outline)} {s : Text} : Bracketed (IsMember inner) ms s →
      IsComposite inner (.object ms) ('\x7b' :: (s ++ ['\x7d']))
  | array {es : List Outline} {s : Text} : Bracketed (IsElement inner) es s →
      IsComposite inner (.array es) ('[' :: (s ++ [']']))

/-- A value in which objects and arrays nest up to `d` deep. -/
def IsValue : (d : Nat) → Outline → Text → Prop
  | 0, o, s => IsLeaf o s
  | d + 1, o, s => IsLeaf o s ∨ IsComposite (IsValue d) o s

/-! ### Documents -/

/-- **A document**: a value that nests up to 128 deep between two gaps, the second of
which may end in a line comment that nothing ends. -/
def IsDocument (o : Outline) (s : Text) : Prop :=
  ∃ g₁ u g₂, s = g₁ ++ (u ++ g₂) ∧ Gap g₁ ∧ IsValue 128 o u ∧ Whole g₂

end EnvManifest
