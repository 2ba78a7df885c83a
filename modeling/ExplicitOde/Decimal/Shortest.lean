import ExplicitOde.Decimal.Nearest

/-!
# Shortest decimals

The decimal fraction with the fewest digits among those whose nearest double is a given double,
and of these the one nearest to it. A rule says which of two equally near ones is taken.

A finite double `m * 2 ^ q` is the nearest double of every number between its halfway points to
its neighbours, and of the halfway points themselves if `m` is even. For one digit, two digits and
so on the two decimals around the double are tested against that interval; the first hit has the
fewest digits.
-/

namespace ExplicitOde

/-- Which of two equally near neighbours is taken. -/
inductive Tie where
  /-- The greater one. -/
  | up
  /-- The one with an even last digit. -/
  | even
  deriving DecidableEq, Repr

/-- Of two equally near neighbours the lower is taken. -/
def Tie.takesLower (tie : Tie) (lower : Nat) : Bool :=
  tie == .even && lower % 2 == 0

/-- The magnitude of a finite double: `significand * 2 ^ exponent`. -/
structure Magnitude where
  significand : Nat
  exponent : Int
  deriving DecidableEq, Repr

namespace Magnitude

/-- The magnitude in a bit pattern without its sign. -/
def ofBits (bits : Nat) : Magnitude :=
  let field := bits / Nat.pow 2 52 % 2048
  let fraction := bits % Nat.pow 2 52
  if field == 0 then ⟨fraction, leastExponent⟩
  else ⟨Nat.pow 2 52 + fraction, leastExponent + (field - 1 : Nat)⟩

/-- The neighbour below is half as far away as the one above: the significand is the least of its
exponent. -/
def isNarrow (x : Magnitude) : Bool :=
  x.significand == Nat.pow 2 52 && leastExponent < x.exponent

/-- Numerators over one denominator of a magnitude and of the ends of the interval that rounds to
it. -/
structure Interval where
  low : Nat
  value : Nat
  high : Nat
  den : Nat
  /-- The ends belong to the interval. -/
  closed : Bool

/-- The interval of numbers that round to a magnitude, in quarters of its last place. -/
def interval (x : Magnitude) : Interval :=
  let m := 4 * x.significand
  let factor := if 0 ≤ x.exponent then Nat.pow 2 x.exponent.toNat else 1
  let den := if 0 ≤ x.exponent then 4 else 4 * Nat.pow 2 (-x.exponent).toNat
  { low := (if x.isNarrow then m - 1 else m - 2) * factor
    value := m * factor
    high := (m + 2) * factor
    den := den
    closed := x.significand % 2 == 0 }

/-- `num / den < 10 ^ e`, or with `orEqual` also equality. -/
def belowPower (num den : Nat) (e : Int) (orEqual : Bool) : Bool :=
  let (left, right) :=
    if 0 ≤ e then (num, den * Nat.pow 10 e.toNat) else (num * Nat.pow 10 (-e).toNat, den)
  left < right || (orEqual && left == right)

/-- The exponent of the leading decimal digit of a positive ratio: the greatest `e` with
`10 ^ e ≤ num / den`. The logarithms to base two leave at most three candidates. -/
def leadingExponent (num den : Nat) : Int :=
  let bits : Int := (num.log2 : Int) - den.log2
  let guess : Int := (bits * 30103).fdiv 100000 - 1
  if belowPower num den (guess + 1) false then guess
  else if belowPower num den (guess + 2) false then guess + 1
  else guess + 2

/-- A decimal lies in the interval. -/
def Interval.contains (i : Interval) (d : Decimal) : Bool :=
  let (num, den) :=
    if 0 ≤ d.exponent then (d.coefficient * Nat.pow 10 d.exponent.toNat, 1)
    else (d.coefficient, Nat.pow 10 (-d.exponent).toNat)
  let x := num * i.den
  let low := i.low * den
  let high := i.high * den
  (low < x && x < high) || (i.closed && (x == low || x == high))

/-- The nearer of two neighbouring decimals on a grid, at least one of which is in the interval. -/
def nearerHit (tie : Tie) (i : Interval) (coefficient : Nat) (exponent : Int) : Option Decimal :=
  let below : Decimal := ⟨coefficient, exponent⟩
  let above : Decimal := ⟨coefficient + 1, exponent⟩
  match i.contains below, i.contains above with
  | true, true =>
    -- twice the value against the sum of the two, all over one denominator
    let (num, den) :=
      if 0 ≤ exponent then ((2 * coefficient + 1) * Nat.pow 10 exponent.toNat, 1)
      else (2 * coefficient + 1, Nat.pow 10 (-exponent).toNat)
    let (twice, sum) := (2 * i.value * den, num * i.den)
    if twice < sum || (twice == sum && tie.takesLower coefficient) then some below else some above
  | true, false => some below
  | false, true => some above
  | false, false => none

/-- The first grid, from the coarsest on, with a hit; `left` counts the grids still to try. -/
def searchGrids (tie : Tie) (i : Interval) (lead : Int) (digits : Nat) : Nat → Decimal
  | 0 => ⟨0, 0⟩
  | left + 1 =>
    let exponent := lead - digits + 1
    let coefficient :=
      if 0 ≤ exponent then i.value / (i.den * Nat.pow 10 exponent.toNat)
      else i.value * Nat.pow 10 (-exponent).toNat / i.den
    match nearerHit tie i coefficient exponent with
    | some d => d
    | none => searchGrids tie i lead (digits + 1) left

/-- A coefficient without its trailing zeros; `left` bounds their number. -/
def dropZeros (d : Decimal) : Nat → Decimal
  | 0 => d
  | left + 1 =>
    if d.coefficient % 10 == 0 then dropZeros ⟨d.coefficient / 10, d.exponent + 1⟩ left else d

/-- The shortest decimal of a magnitude. Seventeen digits tell any two doubles apart, so one of
seventeen grids has a hit. -/
def shortest (tie : Tie) (x : Magnitude) : Decimal :=
  if x.significand == 0 then ⟨0, 0⟩
  else
    let i := x.interval
    dropZeros (searchGrids tie i (leadingExponent i.value i.den) 1 17) 17

end Magnitude

namespace Decimal

/-- The shortest decimal fraction that reads back as the magnitude of a finite double. -/
def ofDouble (tie : Tie) (v : Float) : Decimal :=
  (Magnitude.ofBits v.toBits.toNat).shortest tie

end Decimal

end ExplicitOde
