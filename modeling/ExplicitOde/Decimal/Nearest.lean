import ExplicitOde.Decimal.Basic

/-!
# Nearest doubles

The double nearest to a ratio of natural numbers, and from it the double nearest to a decimal
fraction. Of two equally near doubles the one with the even significand is taken. All steps but
the last are exact arithmetic on natural numbers.
-/

namespace ExplicitOde

/-- A ratio divided by `2 ^ q`, again as a ratio. -/
def scaleRatio (num den : Nat) (q : Int) : Nat × Nat :=
  if 0 ≤ q then (num, den * Nat.pow 2 q.toNat) else (num * Nat.pow 2 (-q).toNat, den)

/-- A quotient rounded to the nearest integer, halves to the even neighbour. -/
def roundRatio (num den : Nat) : Nat :=
  let quotient := num / den
  let rest := num % den
  if den < 2 * rest || (2 * rest == den && quotient % 2 == 1) then quotient + 1 else quotient

/-- The least exponent of two in a double. -/
def leastExponent : Int := -1074

/-- The power of two that the significand of a positive ratio counts: the quotient by it has 53
bits, or it is the least exponent of all. -/
def significandExponent (num den : Nat) : Int :=
  let guess : Int := (num.log2 : Int) - den.log2 - 52
  let (n, d) := scaleRatio num den guess
  max leastExponent (if n / d < Nat.pow 2 52 then guess - 1 else guess)

/-- The bit pattern of positive infinity. -/
def infinityBits : Nat := 2047 * Nat.pow 2 52

/-- The bit pattern of the double nearest to `num / den`. Significand and exponent field add up,
so that a significand rounded up to `2 ^ 53` carries into the exponent, and from `infinityBits` on
the result is infinite. -/
def nearestBits (num den : Nat) : Nat :=
  if num == 0 then 0
  else
    let q := significandExponent num den
    let (n, d) := scaleRatio num den q
    min infinityBits ((q - leastExponent).toNat * Nat.pow 2 52 + roundRatio n d)

/-- The double nearest to `num / den`. -/
def nearestDouble (num den : Nat) : Float :=
  Float.ofBits (nearestBits num den).toUInt64

namespace Decimal

/-- The double nearest to a decimal fraction. Fractions far outside the range of doubles are
infinite or zero without their power of ten being formed. -/
def toDouble (d : Decimal) : Float :=
  let size := (decimalDigits d.coefficient).length + d.exponent
  if d.coefficient == 0 || size < -400 then 0.0
  else if 400 < size then Float.ofBits infinityBits.toUInt64
  else if 0 ≤ d.exponent then nearestDouble (d.coefficient * Nat.pow 10 d.exponent.toNat) 1
  else nearestDouble d.coefficient (Nat.pow 10 (-d.exponent).toNat)

end Decimal

end ExplicitOde
