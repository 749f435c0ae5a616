/-!
# Doubles, exactly

A finite double without its sign is `mantissa * 2 ^ exponent`, with a mantissa of at
most fifty-three bits and an exponent of at least -1074. Every operation here is one
exact quotient of natural numbers followed by one rounding to nearest, a half going
to the even neighbour (`roundDiv`); a result beyond the largest double is none.
-/

namespace EnvManifest

/-- A quotient rounded to the nearest natural number, a half to the even one. -/
def roundDiv (num den : Nat) : Nat :=
  let q := num / den
  let r := num % den
  if den < 2 * r ∨ (2 * r = den ∧ q % 2 = 1) then q + 1 else q

/-- The rounded quotient is within half a unit of the exact one. -/
theorem roundDiv_near (num : Nat) {den : Nat} (h : 0 < den) :
    2 * num ≤ (2 * roundDiv num den + 1) * den ∧ 2 * roundDiv num den * den ≤ 2 * num + den := by
  have hdiv := Nat.div_add_mod num den
  have hmod := Nat.mod_lt num h
  generalize hq : num / den = q at hdiv
  generalize hr : num % den = r at hdiv hmod
  have e1 : (2 * q + 1) * den = 2 * (den * q) + den := by
    rw [Nat.add_mul, Nat.mul_assoc, Nat.mul_comm q den]; omega
  have e2 : (2 * (q + 1) + 1) * den = 2 * (den * q) + 3 * den := by
    rw [Nat.add_mul, Nat.mul_assoc, Nat.add_mul, Nat.mul_comm q den]; omega
  have e3 : 2 * q * den = 2 * (den * q) := by rw [Nat.mul_assoc, Nat.mul_comm q den]
  have e4 : 2 * (q + 1) * den = 2 * (den * q) + 2 * den := by
    rw [Nat.mul_assoc, Nat.add_mul, Nat.mul_comm q den]; omega
  simp only [roundDiv, hq, hr]
  split <;> omega

/-- A finite double without its sign. -/
structure Binary64 where
  mantissa : Nat
  exponent : Int
deriving DecidableEq

namespace Binary64

/-- The double zero. -/
def zero : Binary64 := ⟨0, 0⟩

/-- Whether this is zero. -/
def isZero (x : Binary64) : Bool :=
  x.mantissa == 0

/-- The least exponent. -/
def minExponent : Int := -1074

/-- The greatest exponent of a mantissa with fifty-three bits. -/
def maxExponent : Int := 971

/-- `num / den / 2 ^ e` as one quotient. -/
def scaled (num den : Nat) (e : Int) : Nat × Nat :=
  if 0 ≤ e then (num, den * Nat.pow 2 e.toNat) else (num * Nat.pow 2 (-e).toNat, den)

/-- The exponent at which a positive quotient has a whole part of fifty-three bits,
or the least exponent if that is greater. -/
def exponentOf (num den : Nat) : Int :=
  let guess : Int := (Nat.log2 num : Int) - (Nat.log2 den : Int) - 53
  let (n, d) := scaled num den guess
  max minExponent (if n / d < Nat.pow 2 53 then guess else guess + 1)

/-- The double nearest to `num / den`; none if that is beyond the largest. -/
def round (num den : Nat) : Option Binary64 :=
  if num = 0 then some zero
  else
    let e := exponentOf num den
    let (n, d) := scaled num den e
    let m := roundDiv n d
    let (m, e) := if m = Nat.pow 2 53 then (Nat.pow 2 52, e + 1) else (m, e)
    if maxExponent < e then none else some ⟨m, e⟩

/-- The double as an exact quotient. -/
def quotient (x : Binary64) : Nat × Nat :=
  if 0 ≤ x.exponent then (x.mantissa * Nat.pow 2 x.exponent.toNat, 1)
  else (x.mantissa, Nat.pow 2 (-x.exponent).toNat)

/-- The rounded product. -/
def mul (x y : Binary64) : Option Binary64 :=
  round (x.quotient.1 * y.quotient.1) (x.quotient.2 * y.quotient.2)

/-- The rounded quotient. -/
def div (x y : Binary64) : Option Binary64 :=
  round (x.quotient.1 * y.quotient.2) (x.quotient.2 * y.quotient.1)

end Binary64

end EnvManifest
