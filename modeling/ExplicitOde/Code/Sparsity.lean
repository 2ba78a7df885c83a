import ExplicitOde.Function.Basic

/-!
# Sparsity patterns

Generated code describes the shapes of inputs and outputs by arrays in compressed column storage:
the numbers of rows and columns, where each column starts among the entries and where the last one
ends, and the row of every entry. All patterns are dense. Shapes that occur several times share one
array.
-/

namespace ExplicitOde

/-- The dense pattern of a shape in compressed column storage. -/
def densePattern (shape : Shape) : List Nat :=
  let (rows, cols) := shape
  [rows, cols] ++ (List.range (cols + 1)).map (· * rows) ++
    (List.replicate cols (List.range rows)).flatten

namespace SymbolicFunction

variable {α : Type}

/-- The shapes of inputs and outputs, each once, in the order of first use. -/
def shapes (f : SymbolicFunction α) : List Shape :=
  ((f.inputs ++ f.outputs).map ExprMatrix.shape).eraseDups

/-- The number of the array that describes a shape. -/
def patternIndex (f : SymbolicFunction α) (shape : Shape) : Nat :=
  f.shapes.idxOf shape

end SymbolicFunction

end ExplicitOde
