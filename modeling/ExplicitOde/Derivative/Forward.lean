import ExplicitOde.Derivative.Partial
import ExplicitOde.Expr.Order
import ExplicitOde.Matrix.Basic
import Std.Data.HashMap

/-!
# Forward derivatives

A direction gives every symbol a tangent. The tangents of all nodes follow in evaluation order by
the chain rule: the sum over the operands of the partial derivative times the operand's tangent.
Operands with tangent zero contribute nothing, and their partial derivative is not even built.
-/

namespace ExplicitOde

variable {α : Type}

/-- Expressions by identity of a node. -/
abbrev ExprTable (α : Type) := Std.HashMap Nat (Expr α)

variable [Scalar α]

/-- Adds the contribution of one operand to a tangent. -/
def addTangent (table : ExprTable α) (sum : Expr α) (operand : Expr α × Build (Expr α)) :
    Build (Expr α) :=
  match table[operand.1.id]? with
  | none => pure sum
  | some tangent =>
    if tangent.isZero then pure sum
    else do Expr.mkAdd sum (← Expr.mkMul (← operand.2) tangent)

/-- The tangent of a node from those of its operands. -/
def tangentOf (direction table : ExprTable α) (e : Expr α) : Build (Expr α) :=
  match e with
  | .const _ _ => Expr.mkZero
  | .symbol id _ =>
    match direction[id]? with
    | some tangent => pure tangent
    | none => Expr.mkZero
  | e => do e.partials.foldlM (addTangent table) (← Expr.mkZero)

/-- The tangents of the nodes of an order. -/
def tangentTable (direction : ExprTable α) (order : List (Expr α)) : Build (ExprTable α) :=
  order.foldlM (fun table e => do return table.insert e.id (← tangentOf direction table e)) ∅

/-- The tangent of a root; one that was not visited has none. -/
def rootTangent (table : ExprTable α) (root : Expr α) : Build (Expr α) :=
  match table[root.id]? with
  | some tangent => pure tangent
  | none => Expr.mkZero

/-- The tangents of some roots in a direction. -/
def tangents (order roots : List (Expr α)) (direction : ExprTable α) : Build (List (Expr α)) := do
  let table ← tangentTable direction order
  roots.mapM (rootTangent table)

omit [Scalar α] in
/-- The direction that gives each symbol of a row the expression at its place. -/
def directionOf (symbols : List Nat) (seed : List (Expr α)) : ExprTable α :=
  Std.HashMap.ofList (symbols.zip seed)

namespace ExprMatrix

omit [Scalar α] in
/-- The identities of the symbols that a derivative is taken with respect to. -/
def symbolIds (arg : ExprMatrix α) : Except AlgebraError (List Nat) :=
  arg.elements.mapM fun e =>
    match e.symbolId? with
    | some id => .ok id
    | none => .error (.notSymbols (.differentiation .directional))

/-- The derivative of `expr` with respect to `arg` in the directions that are the columns of
`seed`: the Jacobian matrix times `seed`. -/
def forwardDerivative (expr arg seed : ExprMatrix α) : Attempt AlgebraError (ExprMatrix α) := do
  let kind ← combineKinds .directional [expr.kind, arg.kind, seed.kind]
  if seed.rows ≠ arg.numel then
    throw (.shapes .directional (arg.numel, 1) seed.shape)
  let symbols ← arg.symbolIds
  let order := evaluationOrder expr.elements
  let columns ← (List.range seed.cols).mapM fun j =>
    (tangents order expr.elements (directionOf symbols (seed.grid.columnCells j)) :
      Attempt AlgebraError (List (Expr α)))
  ofElements kind expr.numel seed.cols columns.flatten

/-- The Jacobian matrix of `expr`, its elements in one column, with respect to `arg`. -/
def jacobian (expr arg : ExprMatrix α) : Attempt AlgebraError (ExprMatrix α) := do
  forwardDerivative expr arg (← identity .dm arg.numel)

end ExprMatrix

end ExplicitOde
