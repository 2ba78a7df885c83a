import ExplicitOde.Decimal.Shortest

/-!
# Written decimals

How the shortest decimal of a double is written. A `Layout` holds the decisions: which numbers are
written without an exponent, whether an integral number keeps a point, and how an exponent looks.
Two layouts write the same digits unless two shortest decimals are equally near and their ties
differ.
-/

namespace ExplicitOde

/-- The decisions of a written form of numbers. -/
structure Layout where
  /-- The exponents of the leading digit that are written without an exponent part; all of them if
  absent. -/
  plain : Option (Int × Int)
  /-- Integral numbers without an exponent part end in `.0`. -/
  point : Bool
  /-- Exponents that are not negative have a plus sign. -/
  plusSign : Bool
  /-- Which of two equally near shortest decimals is written. -/
  tie : Tie

namespace Layout

/-- The number is written without an exponent part. -/
def isPlain (l : Layout) (lead : Int) : Bool :=
  match l.plain with
  | none => true
  | some (least, greatest) => least ≤ lead && lead ≤ greatest

/-- A digit row with its point, `point` digits after the start of the row. -/
def plainText (l : Layout) (digits : List Char) (point : Int) : List Char :=
  let count : Int := digits.length
  if count ≤ point then
    digits ++ List.replicate (point - count).toNat '0' ++ (if l.point then ['.', '0'] else [])
  else if 0 < point then
    digits.take point.toNat ++ '.' :: digits.drop point.toNat
  else
    '0' :: '.' :: List.replicate (-point).toNat '0' ++ digits

/-- One digit before the point and an exponent part. -/
def scientificText (l : Layout) (digits : List Char) (lead : Int) : List Char :=
  let fraction := if digits.length ≤ 1 then [] else '.' :: digits.drop 1
  let sign := if lead < 0 then ['-'] else if l.plusSign then ['+'] else []
  digits.take 1 ++ fraction ++ 'e' :: sign ++ decimalDigits lead.natAbs

/-- The written form of a decimal fraction. -/
def decimalText (l : Layout) (d : Decimal) : List Char :=
  let digits := decimalDigits d.coefficient
  let point := digits.length + d.exponent
  if l.isPlain (point - 1) then l.plainText digits point else l.scientificText digits (point - 1)

/-- The written form of a double: `NaN`, or a sign and either `inf` or the shortest decimal. -/
def write (l : Layout) (v : Float) : String :=
  if v.isNaN then "NaN"
  else
    let sign := if v.toBits.toNat / Nat.pow 2 63 == 1 then "-" else ""
    sign ++ (if v.isInf then "inf" else String.ofList (l.decimalText (Decimal.ofDouble l.tie v)))

/-- Numbers inside expression texts: never an exponent, no point after an integral number. -/
def display : Layout := ⟨none, false, false, .up⟩

/-- Numbers as literals: always a point or an exponent; exponents below `1e-4` and from `1e16`. -/
def literal : Layout := ⟨some (-4, 15), true, false, .up⟩

/-- Numbers in reports on documents: as literals, but exponents are always signed and start below
`1e-5`. -/
def report : Layout := ⟨some (-5, 15), true, true, .even⟩

end Layout

end ExplicitOde
