import ExplicitOde.Scalar.Basic

/-!
# Scalar expressions

An expression is a tree of operations over constants and symbols. Every node has an identity, a
number handed out when the node is made. Two places that share a node hold the same tree with the
same identity; the same operation built again has another one. Identity shows in two ways only:
the difference of a node and itself is zero, and tables over the nodes of an expression have one
entry for a node however often it is shared.
-/

namespace ExplicitOde

/-- A scalar expression over numbers `α`. Each constructor's first field is the node's identity. -/
inductive Expr (α : Type) where
  | const (id : Nat) (value : α)
  | symbol (id : Nat) (name : String)
  | unary (id : Nat) (op : UnaryOp) (arg : Expr α)
  | binary (id : Nat) (op : BinaryOp) (lhs rhs : Expr α)

namespace Expr

variable {α : Type}

/-- The identity of the root node. -/
def id : Expr α → Nat
  | const id _ => id
  | symbol id _ => id
  | unary id _ _ => id
  | binary id _ _ _ => id

/-- The operands of the root node, from left to right. -/
def operands : Expr α → List (Expr α)
  | const _ _ => []
  | symbol _ _ => []
  | unary _ _ a => [a]
  | binary _ _ a b => [a, b]

/-- The number of nodes of the tree, shared ones counted at every place. -/
def size : Expr α → Nat
  | const _ _ => 1
  | symbol _ _ => 1
  | unary _ _ a => a.size + 1
  | binary _ _ a b => a.size + b.size + 1

/-- The value of a constant. -/
def constant? : Expr α → Option α
  | const _ v => some v
  | _ => none

/-- The name of a symbol. -/
def symbolName? : Expr α → Option String
  | symbol _ name => some name
  | _ => none

/-- The expression is a symbol. -/
def isSymbol : Expr α → Bool
  | symbol _ _ => true
  | _ => false

/-- The identity of a symbol. -/
def symbolId? : Expr α → Option Nat
  | symbol id _ => some id
  | _ => none

variable [Scalar α]

/-- The expression is a constant with this value. -/
def isConstant (e : Expr α) (value : α) : Bool :=
  match e.constant? with
  | some v => Scalar.equal v value
  | none => false

/-- The expression is the constant zero. -/
def isZero (e : Expr α) : Bool := e.isConstant Scalar.zero

/-- The expression is the constant one. -/
def isOne (e : Expr α) : Bool := e.isConstant Scalar.one

/-- The expression is the constant minus one. -/
def isNegOne (e : Expr α) : Bool := e.isConstant Scalar.negOne

/-- The two expressions are one node or equal constants. Symbols are the same only if they are one
node, whatever their names. -/
def isSame (a b : Expr α) : Bool :=
  a.id == b.id ||
    match a, b with
    | const _ u, const _ v => Scalar.equal u v
    | _, _ => false

end Expr

end ExplicitOde
