import ExplicitOde.Expr.Basic

/-!
# Building expressions

Expressions are built in `Build`, which hands out identities: its state is the least number that no
node has yet. Operations on constants are folded, and operations that change nothing make no node:
`unaryShortcut?` and `binaryShortcut?` say which result an operation has without a node of its own.
-/

namespace ExplicitOde

/-- Computations that make nodes. The state is the least identity not handed out. -/
abbrev Build := StateM Nat

/-- Computations that make nodes and may fail. -/
abbrev Attempt (ε : Type) := ExceptT ε Build

/-- The next identity. -/
def freshId : Build Nat :=
  modifyGet fun next => (next, next + 1)

/-- A result of an operation that needs no node of the operation's own. -/
inductive Shortcut (α : Type) where
  /-- A new constant. -/
  | constant (value : α)
  /-- An expression that is there already. -/
  | existing (e : Expr α)
  /-- The negation of an expression that is there already. -/
  | negated (e : Expr α)

namespace Expr

variable {α : Type} [Scalar α]

/-- Functions of constants are folded where they are defined, and a double negation cancels. -/
def unaryShortcut? (op : UnaryOp) (a : Expr α) : Option (Shortcut α) :=
  match a.constant?.bind (Scalar.foldUnary? op) with
  | some v => some (.constant v)
  | none =>
    match op, a with
    | .neg, .unary _ .neg inner => some (.existing inner)
    | _, _ => none

/-- The rules for neutral and absorbing operands, in the order in which they are tried. -/
def neutralShortcut? (op : BinaryOp) (a b : Expr α) : Option (Shortcut α) :=
  match op with
  | .add =>
    if a.isZero then some (.existing b)
    else if b.isZero then some (.existing a)
    else none
  | .sub =>
    if b.isZero then some (.existing a)
    else if a.isZero then some (.negated b)
    else if a.isSame b then some (.constant Scalar.zero)
    else none
  | .mul =>
    if a.isZero || b.isZero then some (.constant Scalar.zero)
    else if a.isOne then some (.existing b)
    else if b.isOne then some (.existing a)
    else if a.isNegOne then some (.negated b)
    else if b.isNegOne then some (.negated a)
    else none
  | .div =>
    if a.isZero then some (.constant Scalar.zero)
    else if b.isOne then some (.existing a)
    else none
  | .pow =>
    if b.isZero then some (.constant Scalar.one)
    else if b.isOne then some (.existing a)
    else none

/-- Two constants, if both operands are. -/
def constants? (a b : Expr α) : Option (α × α) :=
  match a.constant?, b.constant? with
  | some u, some v => some (u, v)
  | _, _ => none

/-- Operations on two constants are folded where they are defined; then the rules for neutral
operands apply. -/
def binaryShortcut? (op : BinaryOp) (a b : Expr α) : Option (Shortcut α) :=
  match (constants? a b).bind fun (u, v) => Scalar.foldBinary? op u v with
  | some v => some (.constant v)
  | none => neutralShortcut? op a b

omit [Scalar α] in
/-- A new constant. -/
def mkConst (value : α) : Build (Expr α) := do
  return .const (← freshId) value

omit [Scalar α] in
/-- A new symbol, different from all others of its name. -/
def mkSymbol (name : String) : Build (Expr α) := do
  return .symbol (← freshId) name

/-- The constant zero. -/
def mkZero : Build (Expr α) := mkConst Scalar.zero

/-- The constant one. -/
def mkOne : Build (Expr α) := mkConst Scalar.one

/-- A function of an expression. -/
def mkUnary (op : UnaryOp) (a : Expr α) : Build (Expr α) :=
  match unaryShortcut? op a with
  | some (.constant v) => mkConst v
  | some (.existing e) => pure e
  | some (.negated e) => do return .unary (← freshId) .neg e
  | none => do return .unary (← freshId) op a

/-- The negative of an expression. -/
def mkNeg (a : Expr α) : Build (Expr α) := mkUnary .neg a

/-- An operation on two expressions. -/
def mkBinary (op : BinaryOp) (a b : Expr α) : Build (Expr α) :=
  match binaryShortcut? op a b with
  | some (.constant v) => mkConst v
  | some (.existing e) => pure e
  | some (.negated e) => mkNeg e
  | none => do return .binary (← freshId) op a b

/-- The sum of two expressions. -/
def mkAdd (a b : Expr α) : Build (Expr α) := mkBinary .add a b

/-- The difference of two expressions. -/
def mkSub (a b : Expr α) : Build (Expr α) := mkBinary .sub a b

/-- The product of two expressions. -/
def mkMul (a b : Expr α) : Build (Expr α) := mkBinary .mul a b

/-- The quotient of two expressions. -/
def mkDiv (a b : Expr α) : Build (Expr α) := mkBinary .div a b

end Expr

end ExplicitOde
