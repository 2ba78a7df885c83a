import ExplicitOde.Matrix.Basic

/-!
# Block assembly

Matrices side by side, one above the other, and the lower triangle of a matrix as a column.
Matrices without rows and columns are passed over, but their kinds count.
-/

namespace ExplicitOde

namespace ExprMatrix

variable {α : Type}

/-- The grids that take part in an assembly. -/
def blocks (parts : List (ExprMatrix α)) : List (Grid (Expr α)) :=
  (parts.map grid).filter fun g => !g.isNothing

/-- The shapes agree with the first in a respect; the first that does not is reported. -/
def checkShapes (operation : Operation) (agrees : Grid (Expr α) → Bool) (first : Grid (Expr α))
    (others : List (Grid (Expr α))) : Except AlgebraError Unit :=
  match others.find? fun g => !agrees g with
  | some g => .error (.shapes operation first.shape g.shape)
  | none => .ok ()

/-- Matrices of equally many rows, side by side. -/
def beside (parts : List (ExprMatrix α)) : Except AlgebraError (ExprMatrix α) := do
  let kind ← combineKinds .beside (parts.map ExprMatrix.kind)
  match blocks parts with
  | [] => return ⟨kind, ⟨0, 0, []⟩⟩
  | first :: others =>
    checkShapes .beside (fun g => g.rows == first.rows) first others
    let all := first :: others
    return ⟨kind, ⟨first.rows, (all.map Grid.cols).foldr (· + ·) 0, Grid.besideCells all⟩⟩

/-- Matrices of equally many columns, one above the other. -/
def above (parts : List (ExprMatrix α)) : Except AlgebraError (ExprMatrix α) := do
  let kind ← combineKinds .above (parts.map ExprMatrix.kind)
  match blocks parts with
  | [] => return ⟨kind, ⟨0, 0, []⟩⟩
  | first :: others =>
    checkShapes .above (fun g => g.cols == first.cols) first others
    let all := first :: others
    return ⟨kind, ⟨(all.map Grid.rows).foldr (· + ·) 0, first.cols, Grid.aboveCells first.cols all⟩⟩

/-- The positions on and below the diagonal, column by column. -/
def lowerPositions (n : Nat) : List (Nat × Nat) :=
  (List.range n).flatMap fun j => (List.range (n - j)).map fun k => (j + k, j)

/-- The elements on and below the diagonal as a column, column by column. As many rows count as
columns; the elements are stacked one by one. -/
def lowerTriangle (m : ExprMatrix α) : Except AlgebraError (ExprMatrix α) := do
  above (← (lowerPositions m.rows).mapM fun (i, j) => m.element i j)

end ExprMatrix

end ExplicitOde
