import EnvManifest.Text.Basic

/-!
# Versions

A version is three numbers and, for a prerelease, a list of identifiers; build
metadata is read and plays no part in anything. Numbers fit in sixty-four bits and
have no leading zeros, identifiers have letters, digits and hyphens, and an
identifier of a prerelease that has only digits has no leading zero either.

Among prereleases of one version, identifiers are compared from left to right:
numbers by value and below words, words by their characters, a longer list above
its beginning. The version itself stands above its prereleases.
-/

namespace EnvManifest

/-- The identifiers of a prerelease; a release has none. -/
abbrev Prerelease := List Text

/-- A version without its build metadata. -/
structure Version where
  major : Nat
  minor : Nat
  patch : Nat
  pre : Prerelease
deriving DecidableEq

namespace Version

/-! ### Reading the parts -/

/-- A number at the front of a text, without leading zeros and within sixty-four
bits, and the rest. -/
def number? (s : Text) : Option (Nat × Text) :=
  let digits := s.takeWhile Text.isDigit
  let n := Text.toNat digits
  if digits.isEmpty || (digits.length != 1 && digits.head? == some '0') || Nat.pow 2 64 ≤ n then
    none
  else some (n, s.dropWhile Text.isDigit)

/-- Whether a character may stand in an identifier. -/
def isIdentifierChar (c : Char) : Bool :=
  c.isAlphanum || c == '-'

/-- Whether an identifier is a number. -/
def isNumeric (identifier : Text) : Bool :=
  identifier.all Text.isDigit

/-- Whether a text is an identifier; `strict` forbids leading zeros in numbers. -/
def isIdentifier (strict : Bool) (s : Text) : Bool :=
  !s.isEmpty && s.all isIdentifierChar &&
    !(strict && isNumeric s && s.length != 1 && s.head? == some '0')

/-- Identifiers with dots between them at the front of a text, and the rest. -/
def identifiers? (strict : Bool) (s : Text) : Option (List Text × Text) :=
  let run := s.takeWhile fun c => isIdentifierChar c || c == '.'
  let parts := run.splitOn '.'
  if parts.all (isIdentifier strict) then some (parts, s.drop run.length) else none

/-- The identifiers behind `mark`, if it comes next. -/
def marked? (mark : Char) (strict : Bool) : Text → Option (List Text × Text)
  | c :: rest => if c = mark then identifiers? strict rest else some ([], c :: rest)
  | [] => some ([], [])

/-- The rest behind one character. -/
def expect? (c : Char) : Text → Option Text
  | d :: rest => if d = c then some rest else none
  | [] => none

/-- The version that a whole text denotes. -/
def ofText? (s : Text) : Option Version := do
  let (major, s) ← number? s
  let s ← expect? '.' s
  let (minor, s) ← number? s
  let s ← expect? '.' s
  let (patch, s) ← number? s
  let (pre, s) ← marked? '-' true s
  let (_, s) ← marked? '+' false s
  if s.isEmpty then some ⟨major, minor, patch, pre⟩ else none

/-! ### The order of prereleases -/

/-- Two identifiers compared. -/
def compareIdentifiers (a b : Text) : Ordering :=
  match isNumeric a, isNumeric b with
  | true, true => compare (Text.toNat a) (Text.toNat b)
  | true, false => .lt
  | false, true => .gt
  | false, false => compare a b

/-- Two lists of identifiers compared, a beginning being below the whole. -/
def compareLists : List Text → List Text → Ordering
  | [], [] => .eq
  | [], _ :: _ => .lt
  | _ :: _, [] => .gt
  | a :: as, b :: bs => (compareIdentifiers a b).then (compareLists as bs)

/-- Two prereleases of one version compared; the release is the greatest. -/
def comparePre : Prerelease → Prerelease → Ordering
  | [], [] => .eq
  | [], _ :: _ => .gt
  | _ :: _, [] => .lt
  | as, bs => compareLists as bs

end Version

end EnvManifest
