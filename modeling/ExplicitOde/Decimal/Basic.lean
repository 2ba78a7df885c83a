/-!
# Decimal fractions

A decimal fraction is a coefficient times a power of ten. `Decimal.read` gives the value of a
decimal numeral: digits with at most one point among or beside them and an optional exponent.
-/

namespace ExplicitOde

/-- The number `coefficient * 10 ^ exponent`. -/
structure Decimal where
  coefficient : Nat
  exponent : Int
  deriving DecidableEq, Repr

/-- The value of a row of decimal digits. -/
def digitsValue (digits : List Char) : Nat :=
  digits.foldl (fun value c => 10 * value + (c.toNat - '0'.toNat)) 0

/-- The digits of a number, the leading one first. -/
def decimalDigits (value : Nat) : List Char :=
  Nat.toDigits 10 value

namespace Decimal

/-- The exponent part of a numeral: nothing, or `e` and an optionally signed row of digits. -/
def readExponent : List Char → Option Int
  | [] => some 0
  | e :: rest =>
    if e == 'e' || e == 'E' then
      let (negative, digits) : Bool × List Char :=
        match rest with
        | '+' :: digits => (false, digits)
        | '-' :: digits => (true, digits)
        | digits => (false, digits)
      if digits.isEmpty || !digits.all Char.isDigit then none
      else if negative then some (-(digitsValue digits : Int))
      else some (digitsValue digits)
    else none

/-- The value of an unsigned decimal numeral: at least one digit, at most one point before, among
or after the digits, and an optional exponent. Any other text is no numeral. -/
def read (text : List Char) : Option Decimal :=
  let whole := text.takeWhile Char.isDigit
  let afterWhole := text.dropWhile Char.isDigit
  let (fraction, afterFraction) : List Char × List Char :=
    match afterWhole with
    | '.' :: rest => (rest.takeWhile Char.isDigit, rest.dropWhile Char.isDigit)
    | rest => ([], rest)
  if whole.isEmpty && fraction.isEmpty then none
  else
    (readExponent afterFraction).map fun e =>
      ⟨digitsValue (whole ++ fraction), e - fraction.length⟩

end Decimal

end ExplicitOde
