import ExplicitOde.Expr.Build

/-!
# Partial derivatives

The derivative of every elementary operation by each of its operands, as an expression. Where the
derivative can be had from the value of the operation (`exp`, `tanh`, `sqrt`, quotients, powers) it
is written with the node itself, so that the value is computed once.
-/

namespace ExplicitOde

namespace Expr

variable {α : Type} [Scalar α]

/-- The reciprocal of `sqrt (1 - a * a)`. -/
def arcPartial (a : Expr α) : Build (Expr α) := do
  let square ← mkMul a a
  let root ← mkUnary .sqrt (← mkSub (← mkOne) square)
  mkDiv (← mkOne) root

/-- The derivative of `node`, a function of `a`, by `a`. -/
def unaryPartial (op : UnaryOp) (node a : Expr α) : Build (Expr α) :=
  match op with
  | .neg => mkConst Scalar.negOne
  | .sin => mkUnary .cos a
  | .cos => do mkNeg (← mkUnary .sin a)
  | .tan => do
    let c ← mkUnary .cos a
    mkDiv (← mkOne) (← mkMul c c)
  | .asin => arcPartial a
  | .acos => do mkNeg (← arcPartial a)
  | .atan => do mkDiv (← mkOne) (← mkAdd (← mkOne) (← mkMul a a))
  | .sinh => mkUnary .cosh a
  | .cosh => mkUnary .sinh a
  | .tanh => do mkSub (← mkOne) (← mkMul node node)
  | .exp => pure node
  | .log => do mkDiv (← mkOne) a
  | .sqrt => do mkDiv (← mkConst Scalar.half) node

/-- The derivative of `node`, an operation on `a` and `b`, by `a`. -/
def leftPartial (op : BinaryOp) (a b : Expr α) : Build (Expr α) :=
  match op with
  | .add => mkOne
  | .sub => mkOne
  | .mul => pure b
  | .div => do mkDiv (← mkOne) b
  | .pow => do mkMul b (← mkBinary .pow a (← mkSub b (← mkOne)))

/-- The derivative of `node`, an operation on `a` and `b`, by `b`. -/
def rightPartial (op : BinaryOp) (node a b : Expr α) : Build (Expr α) :=
  match op with
  | .add => mkOne
  | .sub => mkConst Scalar.negOne
  | .mul => pure a
  | .div => do mkNeg (← mkDiv node b)
  | .pow => do mkMul node (← mkUnary .log a)

/-- The operands of the root node, each with the derivative of the node by it. -/
def partials : Expr α → List (Expr α × Build (Expr α))
  | const _ _ => []
  | symbol _ _ => []
  | unary id op a => [(a, unaryPartial op (unary id op a) a)]
  | binary id op a b => [(a, leftPartial op a b), (b, rightPartial op (binary id op a b) a b)]

end Expr

end ExplicitOde
