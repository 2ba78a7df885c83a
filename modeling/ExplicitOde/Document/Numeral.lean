import ExplicitOde.Decimal.Layout

/-!
# Numerals in documents

A numeral keeps its digits as they are written. `Numeral.value` is the number it stands for: an
integer if it is written as one and fits into 64 bits, else a double computed from the leading
digits that fit into 64 bits and from the power of ten.
-/

namespace ExplicitOde

/-- A numeral as it is written. -/
structure Numeral where
  negative : Bool
  /-- The digits before the point. -/
  whole : List Char
  /-- The digits after the point, if there is one. -/
  fraction : Option (List Char)
  /-- The sign and the digits of the exponent, if there is one. -/
  exponent : Option (Bool × List Char)
  deriving DecidableEq, Repr

/-- What a numeral stands for. -/
inductive NumeralValue where
  | integer (value : Int)
  | real (value : Float)
  /-- The number is greater than all doubles. -/
  | outOfRange

namespace Numeral

/-- Appends digits to a number as long as it fits into 64 bits; also the number of digits that were
appended, and those that were not. -/
def absorb (significand count : Nat) : List Char → Nat × Nat × List Char
  | [] => (significand, count, [])
  | c :: cs =>
    let next := 10 * significand + (c.toNat - '0'.toNat)
    if next < Nat.pow 2 64 then absorb next (count + 1) cs else (significand, count, c :: cs)

/-- The double nearest to a power of ten. -/
def powerOfTen (e : Nat) : Float := Decimal.toDouble ⟨1, e⟩

/-- A significand of 64 bits times a power of ten. The significand is rounded to a double first and
then multiplied or divided, below the range of doubles in two steps. -/
def scaled (significand : Nat) (e : Int) : Option Float :=
  let start := nearestDouble significand 1
  if 308 < e then if significand == 0 then some 0.0 else none
  else if 0 ≤ e then
    let result := start * powerOfTen e.toNat
    if result.isInf then none else some result
  else if -308 ≤ e then some (start / powerOfTen (-e).toNat)
  else if -616 ≤ e then some (start / powerOfTen 308 / powerOfTen (-e - 308).toNat)
  else some 0.0

/-- A significand with a power of ten and the exponent that is written. -/
def withExponent (significand : Nat) (e : Int) : Option (Bool × List Char) → Option Float
  | none => scaled significand e
  | some (negative, digits) =>
    let written := digitsValue digits
    if written < Nat.pow 2 31 then scaled significand
      (if negative then e - written else e + written)
    else if significand == 0 || negative then some 0.0
    else none

/-- The magnitude of a numeral as a double. -/
def magnitude (n : Numeral) : Option Float :=
  let (leading, _, dropped) := absorb 0 0 n.whole
  let (significand, count, _) := absorb leading 0 (n.fraction.getD [])
  withExponent significand ((dropped.length : Int) - count) n.exponent

/-- A numeral of digits only that fits into 64 bits; zero with a minus sign does not count. -/
def integer? (n : Numeral) : Option Int :=
  if n.fraction.isSome || n.exponent.isSome then none
  else
    let magnitude := digitsValue n.whole
    if n.negative then
      if 0 < magnitude ∧ magnitude ≤ Nat.pow 2 63 then some (-(magnitude : Int)) else none
    else if magnitude < Nat.pow 2 64 then some magnitude else none

/-- What a numeral stands for. -/
def value (n : Numeral) : NumeralValue :=
  match n.integer? with
  | some i => .integer i
  | none =>
    match n.magnitude with
    | some v => .real (if n.negative then -v else v)
    | none => .outOfRange

end Numeral

end ExplicitOde
