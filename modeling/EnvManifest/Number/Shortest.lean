import EnvManifest.Number.Binary64
import EnvManifest.Text.Basic

/-!
# The shortest decimal text of a double

The text of a double has the fewest digits that still denote it, and of those
digits the nearest. The numbers that round to a double form an interval around it,
with its ends if the mantissa is even. On the decimal grid of one digit, then two,
and so on, the two neighbours of the value are tried; the first grid with a
neighbour in the interval gives the digits, the nearer of two being taken and an
exact tie going to the even one.

The digits are set out positionally from a decimal exponent of -5 to one of 15,
always with a decimal point, and otherwise with an exponent and its sign.
-/

namespace EnvManifest

namespace Binary64

/-- Twice the numerators, over one denominator, of the lower end of the rounding
interval of a positive double, of the double, and of the upper end. -/
structure Interval where
  low : Nat
  value : Nat
  high : Nat
  den : Nat
  closed : Bool

/-- The rounding interval of a positive double: half way to the neighbours. Below a
power of two the neighbour is only half as far. -/
def interval (x : Binary64) : Interval :=
  let below := if x.mantissa = Nat.pow 2 52 ∧ minExponent < x.exponent then 1 else 2
  let unit : Nat × Nat :=
    if 0 ≤ x.exponent then (Nat.pow 2 x.exponent.toNat, 4)
    else (1, 4 * Nat.pow 2 (-x.exponent).toNat)
  ⟨(4 * x.mantissa - below) * unit.1, 4 * x.mantissa * unit.1, (4 * x.mantissa + 2) * unit.1,
    unit.2, x.mantissa % 2 = 0⟩

/-- Whether `n / d` lies in the interval. -/
def Interval.contains (i : Interval) (n d : Nat) : Bool :=
  if i.closed then i.low * d ≤ n * i.den && n * i.den ≤ i.high * d
  else i.low * d < n * i.den && n * i.den < i.high * d

/-- Decimal digits `digits` times ten to the power of `exponent`. -/
structure Decimal where
  digits : Nat
  exponent : Int
deriving DecidableEq

/-- The multiple of `10 ^ e` nearest to the value of an interval among its two
neighbours, if one of them is in the interval. -/
def Interval.onGrid (i : Interval) (e : Int) : Option Decimal :=
  let up := if 0 ≤ e then Nat.pow 10 e.toNat else 1
  let down := if 0 ≤ e then 1 else Nat.pow 10 (-e).toNat
  let num := i.value * down
  let den := i.den * up
  let q := num / den
  let r := num % den
  let lowIn := q != 0 && i.contains (q * up) down
  let highIn := i.contains ((q + 1) * up) down
  if lowIn && highIn then
    some ⟨if 2 * r < den ∨ (2 * r = den ∧ q % 2 = 0) then q else q + 1, e⟩
  else if lowIn then some ⟨q, e⟩
  else if highIn then some ⟨q + 1, e⟩
  else none

/-- The decimal on the first of `n` grids, from `10 ^ e` downwards, that has one. -/
def Interval.firstGrid (i : Interval) : (n : Nat) → (e : Int) → Option Decimal
  | 0, _ => none
  | n + 1, e =>
    match i.onGrid e with
    | some d => some d
    | none => i.firstGrid n (e - 1)

/-- A decimal exponent no less than that of a positive quotient. -/
def decimalExponentBound (num den : Nat) : Int :=
  ((Nat.log2 num : Int) - (Nat.log2 den : Int) + 1) * 30103 / 100000 + 1

/-- The shortest decimal of a positive double: seventeen digits are always enough,
and a few coarser grids are tried in vain first. -/
def shortest (x : Binary64) : Decimal :=
  let i := x.interval
  (i.firstGrid 24 (decimalExponentBound i.value i.den)).getD ⟨0, 0⟩

/-! ### Setting out the digits -/

/-- How digits with a decimal exponent are set out. -/
structure Layout where
  /-- The least decimal exponent that is written positionally. -/
  least : Int
  /-- The least decimal exponent above the positional ones. -/
  above : Int

/-- Messages write the exponents from -5 to 15 positionally. -/
def messageLayout : Layout := ⟨-5, 16⟩

/-- The digits without zeros at their end. -/
def significant (digits : Nat) : Text :=
  Text.dropEndWhile (· == '0') (Text.ofNat digits)

/-- A decimal point and what follows it. -/
def pointed (fractionDigits : Text) : Text :=
  '.' :: (if fractionDigits.isEmpty then ['0'] else fractionDigits)

/-- A decimal set out. -/
def Layout.text (l : Layout) (d : Decimal) : Text :=
  let ds := significant d.digits
  let x : Int := d.exponent + ((Text.ofNat d.digits).length : Int) - 1
  if l.least ≤ x ∧ x < l.above then
    if 0 ≤ x then
      let whole := x.toNat + 1
      ds.take whole ++ Text.repeated (whole - ds.length) '0' ++ pointed (ds.drop whole)
    else '0' :: '.' :: Text.repeated ((-x).toNat - 1) '0' ++ ds
  else
    let mantissa := match ds with
      | c :: [] => [c]
      | c :: rest => c :: '.' :: rest
      | [] => []
    mantissa ++ 'e' :: (if 0 ≤ x then '+' else '-') :: Text.ofNat x.natAbs

/-- The text of a double in a message. -/
def text (x : Binary64) : Text :=
  if x.isZero then "0.0".toList else messageLayout.text x.shortest

end Binary64

end EnvManifest
