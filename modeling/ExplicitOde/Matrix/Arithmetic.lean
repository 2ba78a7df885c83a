import ExplicitOde.Matrix.Basic

/-!
# Matrix arithmetic

Sums and differences element by element, products and transposition.
-/

namespace ExplicitOde

namespace ExprMatrix

variable {α : Type} [Scalar α]

/-- The kind of a combination of two matrices. -/
def combinePair (operation : Operation) (a b : ExprMatrix α) : Except AlgebraError Kind :=
  match a.kind.combine? b.kind with
  | some kind => .ok kind
  | none => .error (.kinds operation a.kind b.kind)

/-- An operation on the elements of two matrices of one shape, pair by pair. -/
def elementwise (operation : Operation) (op : BinaryOp) (a b : ExprMatrix α) :
    Attempt AlgebraError (ExprMatrix α) := do
  let kind ← combinePair operation a b
  if a.shape = b.shape then
    let cells ← (a.elements.zip b.elements).mapM fun (x, y) =>
      (Expr.mkBinary op x y : Attempt AlgebraError (Expr α))
    return ⟨kind, ⟨a.rows, a.cols, cells⟩⟩
  else throw (.shapes operation a.shape b.shape)

/-- The sum of two matrices. -/
def add (a b : ExprMatrix α) : Attempt AlgebraError (ExprMatrix α) :=
  elementwise .plus .add a b

/-- The difference of two matrices. -/
def sub (a b : ExprMatrix α) : Attempt AlgebraError (ExprMatrix α) :=
  elementwise .minus .sub a b

/-- The sum of the products of two rows of expressions, pair by pair. -/
def dot (xs ys : List (Expr α)) : Build (Expr α) := do
  (xs.zip ys).foldlM (fun sum (x, y) => do Expr.mkAdd sum (← Expr.mkMul x y)) (← Expr.mkZero)

/-- The elements of a matrix product. -/
def productCells (a b : Grid (Expr α)) : Build (List (Expr α)) :=
  (Grid.positions a.rows b.cols).mapM fun (i, j) => dot (a.rowCells i) (b.columnCells j)

/-- The product of two matrices. -/
def mul (a b : ExprMatrix α) : Attempt AlgebraError (ExprMatrix α) := do
  let kind ← combinePair .product a b
  if a.cols = b.rows then
    return ⟨kind, ⟨a.rows, b.cols, ← productCells a.grid b.grid⟩⟩
  else throw (.shapes .product a.shape b.shape)

omit [Scalar α] in
/-- Rows and columns exchanged. -/
def transpose (m : ExprMatrix α) : ExprMatrix α := ⟨m.kind, m.grid.transpose⟩

end ExprMatrix

end ExplicitOde
