import EnvManifest.Version.Basic

/-!
# Version requirements

A requirement is a list of comparators with commas between them, at most thirty-two,
and a version meets it by meeting all of them. A comparator names a version whose
minor and patch numbers may be missing, or written as the wildcards `*`, `x`, `X`;
without an operator it asks for a compatible version, as `^` does, or, with a
wildcard, for any version with the numbers given. A wildcard alone is the
requirement that every version meets.

A prerelease meets a requirement only if one of the comparators names a prerelease
of the same three numbers: nobody who asks for `>=1.2` means an alpha of 2.0.
-/

namespace EnvManifest

/-- The relations that a comparator can ask for. -/
inductive Operator where
  | exact
  | greater
  | greaterEq
  | less
  | lessEq
  /-- Changes of the last number given. -/
  | tilde
  /-- Changes that keep the first number other than zero. -/
  | caret
  /-- The numbers given, and any others. -/
  | wildcard
deriving DecidableEq

/-- An operator and a version whose minor and patch numbers may be missing. -/
structure Comparator where
  operator : Operator
  major : Nat
  minor : Option Nat
  patch : Option Nat
  pre : Prerelease
deriving DecidableEq

/-- Comparators that all have to be met. -/
abbrev Requirement := List Comparator

/-! ### Reading -/

namespace Comparator

/-- The operator at the front of a text, if one is written, and the rest. -/
def operator? : Text → Option Operator × Text
  | '=' :: rest => (some .exact, rest)
  | '>' :: '=' :: rest => (some .greaterEq, rest)
  | '>' :: rest => (some .greater, rest)
  | '<' :: '=' :: rest => (some .lessEq, rest)
  | '<' :: rest => (some .less, rest)
  | '~' :: rest => (some .tilde, rest)
  | '^' :: rest => (some .caret, rest)
  | s => (none, s)

/-- Whether a character is a wildcard. -/
def isWildcard (c : Char) : Bool :=
  c == '*' || c == 'x' || c == 'X'

/-- What stands in the place of a number. -/
inductive Part where
  | number (n : Nat)
  | wildcard
  | missing
deriving DecidableEq

/-- The number of a part. -/
def Part.number? : Part → Option Nat
  | number n => some n
  | _ => none

/-- A dot and the number or wildcard behind it, if a dot comes next. -/
def part? : Text → Option (Part × Text)
  | '.' :: c :: rest =>
    if isWildcard c then some (.wildcard, rest)
    else (Version.number? (c :: rest)).map fun p => (.number p.1, p.2)
  | ['.'] => none
  | s => some (.missing, s)

/-- The text without spaces in front. -/
def dropSpaces (s : Text) : Text :=
  s.dropWhile (· == ' ')

/-- The comparator at the front of a text, and the rest. A number may not follow a
wildcard, and only a complete version has a prerelease. -/
def ofText? (s : Text) : Option (Comparator × Text) := do
  let (written, s) := operator? s
  let (major, s) ← Version.number? (dropSpaces s)
  let (minor, s) ← part? s
  let (patch, s) ← part? s
  if minor = .wildcard ∧ patch.number?.isSome then none
  let (pre, s) ←
    if patch.number?.isSome then Version.marked? '-' true s else some ([], s)
  let (_, s) ←
    if patch.number?.isSome then Version.marked? '+' false s else some ([], s)
  let fallback : Operator :=
    if minor = .wildcard ∨ patch = .wildcard then .wildcard else .caret
  some (⟨written.getD fallback, major, minor.number?, patch.number?, pre⟩, dropSpaces s)

end Comparator

namespace Requirement

/-- How many comparators a requirement may have. -/
def maxComparators : Nat := 32

/-- At most `n` comparators with commas between them, up to the end of the text. -/
def comparators? : (n : Nat) → Text → Option Requirement
  | 0, _ => none
  | n + 1, s =>
    match Comparator.ofText? s with
    | none => none
    | some (c, []) => some [c]
    | some (c, d :: rest) =>
      if d = ',' then (comparators? n (Comparator.dropSpaces rest)).map (c :: ·) else none

/-- The requirement that a whole text denotes. -/
def ofText? (s : Text) : Option Requirement :=
  match Comparator.dropSpaces s with
  | c :: rest =>
    if Comparator.isWildcard c then
      if (Comparator.dropSpaces rest).isEmpty then some [] else none
    else comparators? maxComparators (c :: rest)
  | [] => none

end Requirement

/-! ### Meeting a requirement -/

namespace Comparator

/-- The numbers given are those of the version, and so is the prerelease. -/
def isExact (c : Comparator) (v : Version) : Bool :=
  v.major == c.major && c.minor.all (v.minor == ·) && c.patch.all (v.patch == ·) && v.pre == c.pre

/-- The version is `side` of the comparator, decided by the first number that
differs; a missing number decides against it. -/
def isBeyond (side : Ordering) (c : Comparator) (v : Version) : Bool :=
  if v.major ≠ c.major then compare v.major c.major == side
  else match c.minor with
    | none => false
    | some minor =>
      if v.minor ≠ minor then compare v.minor minor == side
      else match c.patch with
        | none => false
        | some patch =>
          if v.patch ≠ patch then compare v.patch patch == side
          else Version.comparePre v.pre c.pre == side

/-- The version's prerelease is not below the comparator's. -/
def preAtLeast (c : Comparator) (v : Version) : Bool :=
  Version.comparePre v.pre c.pre != .lt

/-- Major and, if given, minor numbers agree, and the rest is not below. -/
def isTilde (c : Comparator) (v : Version) : Bool :=
  v.major == c.major && c.minor.all (v.minor == ·) &&
    match c.patch with
    | some patch => if v.patch ≠ patch then patch < v.patch else preAtLeast c v
    | none => preAtLeast c v

/-- The numbers up to the first one that is not zero agree, and the rest is not
below. -/
def isCaret (c : Comparator) (v : Version) : Bool :=
  v.major == c.major &&
    match c.minor, c.patch with
    | none, _ => true
    | some minor, none => if 0 < c.major then minor ≤ v.minor else v.minor == minor
    | some minor, some patch =>
      if 0 < c.major ∧ v.minor ≠ minor then minor < v.minor
      else if v.minor ≠ minor then false
      else if v.patch ≠ patch then (0 < c.major || 0 < minor) && patch < v.patch
      else preAtLeast c v

/-- Whether a version meets a comparator, prereleases aside. -/
def isMetBy (c : Comparator) (v : Version) : Bool :=
  match c.operator with
  | .exact => c.isExact v
  | .wildcard => c.isExact v
  | .greater => c.isBeyond .gt v
  | .greaterEq => c.isExact v || c.isBeyond .gt v
  | .less => c.isBeyond .lt v
  | .lessEq => c.isExact v || c.isBeyond .lt v
  | .tilde => c.isTilde v
  | .caret => c.isCaret v

/-- Whether a comparator names a prerelease of the version's three numbers. -/
def admitsPre (c : Comparator) (v : Version) : Bool :=
  c.major == v.major && c.minor == some v.minor && c.patch == some v.patch && !c.pre.isEmpty

end Comparator

/-- **Whether a version meets a requirement.** -/
def Requirement.isMetBy (r : Requirement) (v : Version) : Bool :=
  r.all (Comparator.isMetBy · v) && (v.pre.isEmpty || r.any (Comparator.admitsPre · v))

end EnvManifest
