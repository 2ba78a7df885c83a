import ExplicitOde.Decimal.Layout
import ExplicitOde.Scalar.Basic

/-!
# Double precision

Double precision numbers as constants of expressions. An operation on constants folds if its
result is finite.
-/

namespace ExplicitOde

/-- An elementary function in double precision. -/
def UnaryOp.apply : UnaryOp → Float → Float
  | .neg, v => -v
  | .sin, v => v.sin
  | .cos, v => v.cos
  | .tan, v => v.tan
  | .asin, v => v.asin
  | .acos, v => v.acos
  | .atan, v => v.atan
  | .sinh, v => v.sinh
  | .cosh, v => v.cosh
  | .tanh, v => v.tanh
  | .exp, v => v.exp
  | .log, v => v.log
  | .sqrt, v => v.sqrt

/-- An arithmetic operation in double precision. -/
def BinaryOp.apply : BinaryOp → Float → Float → Float
  | .add, a, b => a + b
  | .sub, a, b => a - b
  | .mul, a, b => a * b
  | .div, a, b => a / b
  | .pow, a, b => a.pow b

/-- A result that an expression may hold as a constant. -/
def finite? (v : Float) : Option Float :=
  if v.isFinite then some v else none

/-- The double nearest to the circle constant. -/
def doublePi : Float :=
  nearestDouble 3141592653589793238 (Nat.pow 10 18)

instance : Scalar Float where
  zero := 0.0
  one := 1.0
  negOne := -1.0
  half := 0.5
  pi := doublePi
  ofDecimal d := d.toDouble
  equal a b := a == b
  foldUnary? op v := finite? (op.apply v)
  foldBinary? op a b := finite? (op.apply a b)

/-- Evaluation in double precision; an unbound symbol is not a number. -/
def Interpretation.double : Interpretation Float Float where
  constant v := v
  unary := UnaryOp.apply
  binary := BinaryOp.apply
  unbound := 0.0 / 0.0

instance : Written Float where
  display := Layout.display.write
  literal := Layout.literal.write
  isNaN v := v.isNaN
  infinite? v := if v.isInf then some (v < 0.0) else none

end ExplicitOde
