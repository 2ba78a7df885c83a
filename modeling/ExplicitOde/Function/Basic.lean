import ExplicitOde.Expr.Order
import ExplicitOde.Matrix.Basic
import Std.Data.HashSet

/-!
# Functions

A function has inputs that consist of symbols, no symbol twice, and outputs that depend on these
symbols only.
-/

namespace ExplicitOde

/-- A named function from matrices of symbols to matrices of expressions. -/
structure SymbolicFunction (α : Type) where
  name : String
  /-- The representation of inputs and outputs; numeric if none of them is symbolic. -/
  kind : Kind
  inputs : List (ExprMatrix α)
  outputs : List (ExprMatrix α)

namespace SymbolicFunction

variable {α : Type}

/-- The name of an input in generated code. -/
def inputName (index : Nat) : String := s!"i{index}"

/-- The name of an output in generated code. -/
def outputName (index : Nat) : String := s!"o{index}"

/-- The elements of all outputs. -/
def outputElements (outputs : List (ExprMatrix α)) : List (Expr α) :=
  outputs.flatMap ExprMatrix.elements

/-- Adds the symbols of an input to those known; none may be known already. -/
def addSymbols (name : String) (known : Std.HashSet Nat) :
    List (Expr α) → Except AlgebraError (Std.HashSet Nat)
  | [] => .ok known
  | e :: es =>
    if known.contains e.id then .error (.repeatedInput name (e.symbolName?.getD ""))
    else addSymbols name (known.insert e.id) es

/-- The symbols of the inputs from an index on, added to those known. -/
def inputSymbols (name : String) (known : Std.HashSet Nat) (index : Nat) :
    List (ExprMatrix α) → Except AlgebraError (Std.HashSet Nat)
  | [] => .ok known
  | input :: inputs =>
    if input.isSymbolic then
      match addSymbols name known input.elements with
      | .error e => .error e
      | .ok known => inputSymbols name known (index + 1) inputs
    else .error (.notSymbols (.input index name))

/-- The function of given inputs and outputs. -/
def make (name : String) (inputs outputs : List (ExprMatrix α)) :
    Except AlgebraError (SymbolicFunction α) := do
  let kind ← ExprMatrix.combineKinds .function ((inputs ++ outputs).map ExprMatrix.kind)
  let known ← inputSymbols name ∅ 0 inputs
  let free := (freeSymbols (outputElements outputs)).filter fun e => !known.contains e.id
  if free.isEmpty then return ⟨name, kind, inputs, outputs⟩
  else throw (.freeSymbols name (free.filterMap Expr.symbolName?))

end SymbolicFunction

end ExplicitOde
