import ExplicitOde.Decimal.Basic
import ExplicitOde.Scalar.Op

/-!
# Numbers that expressions hold

Expressions are built over any type of numbers with a few constants and with partial operations:
`foldUnary?` and `foldBinary?` give the result of an operation on constants where that result is a
number that an expression may hold. What an operation means where no folding is asked for is the
matter of an `Interpretation`, which sends constants and operations into any type of values.
-/

namespace ExplicitOde

/-- The constants and the folding of operations that building expressions needs. -/
class Scalar (α : Type) where
  zero : α
  one : α
  negOne : α
  half : α
  pi : α
  /-- The number a decimal numeral stands for. -/
  ofDecimal : Decimal → α
  /-- Equality of values; a number that is not equal to itself is never a known constant. -/
  equal : α → α → Bool
  /-- The result of an operation on a constant, if it is defined. -/
  foldUnary? : UnaryOp → α → Option α
  /-- The result of an operation on two constants, if it is defined. -/
  foldBinary? : BinaryOp → α → α → Option α

/-- A meaning of constants and operations in a type of values. -/
structure Interpretation (α β : Type) where
  constant : α → β
  unary : UnaryOp → β → β
  binary : BinaryOp → β → β → β
  /-- The value of a symbol that nothing is bound to. -/
  unbound : β

/-- The written forms of numbers. -/
class Written (α : Type) where
  /-- The form inside expression texts. -/
  display : α → String
  /-- The form as a literal, with a point or an exponent. -/
  literal : α → String
  /-- The number is "not a number", for which there is no literal. -/
  isNaN : α → Bool
  /-- The sign of an infinite number, for which there is no literal: `true` for negative. -/
  infinite? : α → Option Bool

end ExplicitOde
