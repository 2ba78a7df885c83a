import ExplicitOde.Error
import ExplicitOde.Expr.Build
import ExplicitOde.Expr.Display

/-!
# Matrices of expressions

A matrix of expressions is a grid of them with a kind. New matrices consist of symbols, of the
constants zero and one, or of given elements; taking elements out keeps the kind.
-/

namespace ExplicitOde

/-- A grid of expressions that belongs to a representation, or is numeric. -/
structure ExprMatrix (α : Type) where
  kind : Kind
  grid : Grid (Expr α)

namespace ExprMatrix

variable {α : Type}

/-- The number of rows. -/
def rows (m : ExprMatrix α) : Nat := m.grid.rows

/-- The number of columns. -/
def cols (m : ExprMatrix α) : Nat := m.grid.cols

/-- The shape of a matrix. -/
def shape (m : ExprMatrix α) : Shape := m.grid.shape

/-- The elements, column by column. -/
def elements (m : ExprMatrix α) : List (Expr α) := m.grid.cells

/-- The number of elements. -/
def numel (m : ExprMatrix α) : Nat := m.grid.numel

/-- A matrix of given elements, column by column; their number must fit the shape. -/
def ofElements (kind : Kind) (rows cols : Nat) (elements : List (Expr α)) :
    Except AlgebraError (ExprMatrix α) :=
  match Grid.ofCells? rows cols elements with
  | some grid => .ok ⟨kind, grid⟩
  | none => .error (.shapes .fromElements (rows, cols) (elements.length, 1))

/-- A column of given elements. -/
def column (kind : Kind) (elements : List (Expr α)) : ExprMatrix α :=
  ⟨kind, Grid.column elements⟩

/-- The name of the symbol at a place of a matrix of symbols: the name of the matrix if it has one
element only, else the name with the place. -/
def symbolName (name : String) (count place : Nat) : String :=
  if count = 1 then name else s!"{name}_{place}"

/-- A matrix of new symbols. -/
def symbols (kind : Kind) (name : String) (rows cols : Nat) : Build (ExprMatrix α) := do
  let count := rows * cols
  let cells ← (List.range count).mapM fun place => Expr.mkSymbol (symbolName name count place)
  return ⟨kind, ⟨rows, cols, cells⟩⟩

/-- A column of new symbols, each with a name of its own. -/
def namedSymbols (kind : Kind) (names : List String) : Build (ExprMatrix α) := do
  return column kind (← names.mapM Expr.mkSymbol)

/-- A matrix of given numbers. -/
def numeric (values : Grid α) : Build (ExprMatrix α) := do
  let cells ← values.cells.mapM Expr.mkConst
  return ⟨.dm, ⟨values.rows, values.cols, cells⟩⟩

/-- A matrix of zeros. -/
def zeros [Scalar α] (kind : Kind) (rows cols : Nat) : Build (ExprMatrix α) := do
  let zero ← Expr.mkZero
  return ⟨kind, ⟨rows, cols, List.replicate (rows * cols) zero⟩⟩

/-- The identity matrix. -/
def identity [Scalar α] (kind : Kind) (n : Nat) : Build (ExprMatrix α) := do
  let zero ← Expr.mkZero
  let cells ← (Grid.positions n n).mapM fun (i, j) =>
    if i = j then Expr.mkOne else pure zero
  return ⟨kind, ⟨n, n, cells⟩⟩

/-- The same elements as a matrix of another kind. -/
def withKind (m : ExprMatrix α) (kind : Kind) : ExprMatrix α := ⟨kind, m.grid⟩

/-- The element at a row and a column. -/
def get (m : ExprMatrix α) (row col : Nat) : Except AlgebraError (Expr α) :=
  match m.grid.get? row col with
  | some e => .ok e
  | none => .error (.noElement row col m.shape)

/-- The element at a row and a column, as a matrix. -/
def element (m : ExprMatrix α) (row col : Nat) : Except AlgebraError (ExprMatrix α) := do
  return column m.kind [← m.get row col]

/-- All elements are symbols. -/
def isSymbolic (m : ExprMatrix α) : Bool := m.elements.all Expr.isSymbol

/-- The text of a matrix, row by row. -/
def display [Written α] (m : ExprMatrix α) : String :=
  let rowTexts := (List.range m.rows).map fun i =>
    String.intercalate ", " ((m.grid.rowCells i).map Expr.display)
  "[" ++ String.intercalate "; " rowTexts ++ "]"

/-- The text of a matrix with its kind. -/
def displayWithKind [Written α] (m : ExprMatrix α) : String :=
  m.kind.name ++ "(" ++ m.display ++ ")"

/-- The common kind of some matrices, from left to right. -/
def combineKinds (operation : Operation) (kinds : List Kind) : Except AlgebraError Kind :=
  kinds.foldlM
    (fun sofar kind =>
      match sofar.combine? kind with
      | some kind => .ok kind
      | none => .error (.kinds operation sofar kind))
    .dm

end ExprMatrix

end ExplicitOde
