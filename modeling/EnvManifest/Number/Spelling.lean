import EnvManifest.Number.Shortest

/-!
# The number that a spelling denotes

A JSON number without fraction and exponent is an integer as long as it fits in
sixty-four bits; everything else, and minus zero, is a double. A double is read from
the digits as far as they fit in sixty-four bits: digits beyond that only count for
the exponent, and the power of ten is multiplied or divided in one rounded
operation, in steps of 308 for exponents below the table. A number too large for a
double denotes none.
-/

namespace EnvManifest

/-- A number as it is reported. -/
inductive Number where
  /-- An integer. -/
  | integer (n : Int)
  /-- A double with its sign. -/
  | real (negative : Bool) (x : Binary64)
deriving DecidableEq

namespace Number

/-- The largest unsigned integer of sixty-four bits. -/
def maxUnsigned : Nat := Nat.pow 2 64 - 1

/-- The parts of a spelling. -/
structure Parts where
  negative : Bool
  whole : Text
  fraction : Option Text
  negativeExponent : Bool
  exponent : Option Text

/-- The parts of a well-formed spelling. -/
def parts (t : Text) : Parts :=
  let negative := t.head? == some '-'
  let t := if negative then t.tail else t
  let whole := t.takeWhile Text.isDigit
  let t := t.dropWhile Text.isDigit
  let fraction := if t.head? == some '.' then some (t.tail.takeWhile Text.isDigit) else none
  let t := if fraction.isSome then t.tail.dropWhile Text.isDigit else t
  match t with
  | [] => ⟨negative, whole, fraction, false, none⟩
  | _ :: '+' :: ds => ⟨negative, whole, fraction, false, some ds⟩
  | _ :: '-' :: ds => ⟨negative, whole, fraction, true, some ds⟩
  | _ :: ds => ⟨negative, whole, fraction, false, some ds⟩

/-- The digits as far as they fit in sixty-four bits behind `n`, and the others. -/
def fitting (n : Nat) : Text → Nat × Text
  | [] => (n, [])
  | c :: rest =>
    let n' := n * 10 + Text.toNat [c]
    if maxUnsigned < n' then (n, c :: rest) else fitting n' rest

/-- `10 ^ k` as a double. -/
def powerOfTen (k : Nat) : Option Binary64 :=
  Binary64.round (Nat.pow 10 k) 1

/-- A double times a power of ten; none if it is too large. -/
def timesPowerOfTen (x : Binary64) (e : Int) : Option Binary64 :=
  if 308 < e then if x.isZero then some x else none
  else if e < -308 then
    if x.isZero then some x
    else do
      let p ← powerOfTen 308
      let y ← x.div p
      timesPowerOfTen y (e + 308)
  else do
    let p ← powerOfTen e.natAbs
    if 0 ≤ e then x.mul p else x.div p
termination_by e.natAbs
decreasing_by omega

/-- The greatest exponent that is told from an endless one. -/
def maxExponent : Nat := Nat.pow 2 31 - 1

/-- The double of digits `n` with exponent `e`, and a written exponent on top. -/
def withExponent (n : Nat) (e : Int) (negative : Bool) (digits : Text) : Option Binary64 :=
  let written := Text.toNat digits
  if maxExponent < written then
    if n ≠ 0 ∧ !negative then none else some Binary64.zero
  else do
    let x ← Binary64.round n 1
    timesPowerOfTen x (if negative then e - written else e + written)

/-- The number that a well-formed spelling denotes; none if it is too large. -/
def ofSpelling (t : Text) : Option Number :=
  let p := parts t
  let (n, beyond) := fitting 0 p.whole
  match beyond, p.fraction, p.exponent with
  | [], none, none =>
    if p.negative then
      if n = 0 ∨ Nat.pow 2 63 < n then (Binary64.round n 1).map (real true) else some (integer (-n))
    else some (integer n)
  | _, _, _ =>
    let (n', ignored) := fitting n (p.fraction.getD [])
    let used := (p.fraction.getD []).length - ignored.length
    let e : Int := beyond.length - used
    (withExponent n' e p.negativeExponent (p.exponent.getD [])).map (real p.negative)

end Number

end EnvManifest
