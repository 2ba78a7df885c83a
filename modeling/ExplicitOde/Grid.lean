/-!
# Grids

A dense rectangle of values, stored column by column. Grids know nothing of what they hold; shapes,
positions, transposition and the assembly of blocks are the same for numbers and expressions.
-/

namespace ExplicitOde

/-- The number of rows and of columns. -/
abbrev Shape := Nat × Nat

/-- Values in rows and columns; `cells` goes through the columns from left to right, and through
each from top to bottom. -/
structure Grid (β : Type) where
  rows : Nat
  cols : Nat
  cells : List β
  deriving DecidableEq, Repr

namespace Grid

variable {β γ : Type}

/-- The shape of a grid. -/
def shape (g : Grid β) : Shape := (g.rows, g.cols)

/-- The number of cells that are there. -/
def numel (g : Grid β) : Nat := g.cells.length

/-- A grid of given cells, if their number fits the shape. -/
def ofCells? (rows cols : Nat) (cells : List β) : Option (Grid β) :=
  if cells.length = rows * cols then some ⟨rows, cols, cells⟩ else none

/-- A single column. -/
def column (cells : List β) : Grid β := ⟨cells.length, 1, cells⟩

/-- The positions of a grid in the order of its cells, each as row and column. -/
def positions (rows cols : Nat) : List (Nat × Nat) :=
  (List.range cols).flatMap fun j => (List.range rows).map fun i => (i, j)

/-- The cell at a row and a column, if there is one. -/
def get? (g : Grid β) (row col : Nat) : Option β :=
  if row < g.rows ∧ col < g.cols then g.cells[row + col * g.rows]? else none

/-- The cells of a column. -/
def columnCells (g : Grid β) (col : Nat) : List β :=
  (g.cells.drop (col * g.rows)).take g.rows

/-- The cells of a row. -/
def rowCells (g : Grid β) (row : Nat) : List β :=
  (List.range g.cols).filterMap fun col => g.get? row col

/-- Every cell replaced by its image. -/
def map (f : β → γ) (g : Grid β) : Grid γ := ⟨g.rows, g.cols, g.cells.map f⟩

/-- Rows and columns exchanged. -/
def transpose (g : Grid β) : Grid β :=
  ⟨g.cols, g.rows, (List.range g.rows).flatMap g.rowCells⟩

/-- The grid has neither rows nor columns; block assembly passes over such grids. -/
def isNothing (g : Grid β) : Bool := g.rows == 0 && g.cols == 0

/-- Grids of equally many rows, side by side. The columns of all of them follow each other. -/
def besideCells (gs : List (Grid β)) : List β :=
  gs.flatMap cells

/-- Grids of equally many columns, one above the other. Each column is made of theirs. -/
def aboveCells (cols : Nat) (gs : List (Grid β)) : List β :=
  (List.range cols).flatMap fun j => gs.flatMap fun g => g.columnCells j

end Grid

end ExplicitOde
