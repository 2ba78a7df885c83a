import ExplicitOde.Derivative.Forward

/-!
# Reverse derivatives

Weights on the roots are carried back to the symbols. In reverse evaluation order every node adds
its weight, times the partial derivative by an operand, to the weight of that operand; when a node
is reached, all its users have done so. Nodes of weight zero are passed over.
-/

namespace ExplicitOde

variable {α : Type} [Scalar α]

/-- Adds to the weight of a node. -/
def addWeight (table : ExprTable α) (id : Nat) (amount : Expr α) : Build (ExprTable α) := do
  let sofar ←
    match table[id]? with
    | some weight => pure weight
    | none => Expr.mkZero
  return table.insert id (← Expr.mkAdd sofar amount)

/-- The weights of the roots, added up where roots are one node. -/
def rootWeights (roots seed : List (Expr α)) : Build (ExprTable α) :=
  (roots.zip seed).foldlM
    (fun table (root, weight) =>
      if weight.isZero then pure table else addWeight table root.id weight)
    ∅

/-- The weights of nodes, and apart from them the weights that symbols ended with. -/
structure Weights (α : Type) where
  nodes : ExprTable α
  symbols : ExprTable α

/-- Passes the weight of a node on to an operand. -/
def passWeight (weight : Expr α) (table : ExprTable α) (operand : Expr α × Build (Expr α)) :
    Build (ExprTable α) := do
  let part ← operand.2
  addWeight table operand.1.id (← Expr.mkMul weight part)

/-- Passes the weight of a node on to all its operands, or notes that of a symbol. -/
def visitWeight (weights : Weights α) (e : Expr α) : Build (Weights α) :=
  match weights.nodes[e.id]? with
  | none => pure weights
  | some weight =>
    if weight.isZero then pure weights
    else
      match e with
      | .const _ _ => pure weights
      | .symbol id _ => do
        return { weights with symbols := ← addWeight weights.symbols id weight }
      | e => do
        return { weights with nodes := ← e.partials.foldlM (passWeight weight) weights.nodes }

/-- The weights of symbols that follow from weights of the roots. -/
def symbolWeights (order roots seed : List (Expr α)) : Build (ExprTable α) := do
  let start ← rootWeights roots seed
  let final ← order.reverse.foldlM visitWeight ⟨start, ∅⟩
  return final.symbols

namespace ExprMatrix

/-- The transposed Jacobian matrix of `expr` with respect to `arg`, times `seed`. -/
def reverseDerivative (expr arg seed : ExprMatrix α) : Attempt AlgebraError (ExprMatrix α) := do
  let kind ← combineKinds .directional [expr.kind, arg.kind, seed.kind]
  if seed.rows ≠ expr.numel then
    throw (.shapes .directional (expr.numel, 1) seed.shape)
  let symbols ← arg.symbolIds
  let order := evaluationOrder expr.elements
  let columns ← (List.range seed.cols).mapM fun j => do
    let table ← symbolWeights order expr.elements (seed.grid.columnCells j)
    (symbols.mapM fun id =>
      match table[id]? with
      | some weight => pure weight
      | none => Expr.mkZero : Attempt AlgebraError (List (Expr α)))
  ofElements kind symbols.length seed.cols columns.flatten

end ExprMatrix

end ExplicitOde
