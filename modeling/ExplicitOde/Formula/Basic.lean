import ExplicitOde.Scalar.Basic

/-!
# Formulas

The tree of a formula as it is written: names are not resolved and nothing is simplified.
-/

namespace ExplicitOde

/-- A formula over numbers `α`. -/
inductive Formula (α : Type) where
  | number (value : α)
  | name (text : String)
  | neg (inner : Formula α)
  | binary (op : BinaryOp) (lhs rhs : Formula α)
  | call (function : String) (args : List (Formula α))

end ExplicitOde
