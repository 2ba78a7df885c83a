import ExplicitOde.Expr.Value
import ExplicitOde.Function.Basic

/-!
# Calling functions

A call binds the symbols of the inputs to given values and evaluates every node below the outputs
once. An argument has as many values as its input has elements.
-/

namespace ExplicitOde

namespace SymbolicFunction

variable {α β : Type}

/-- The arguments fit the inputs from an index on: in shape, or at least in the number of values. -/
def checkArguments (name : String) (index : Nat) :
    List (ExprMatrix α) → List (Grid β) → Except AlgebraError Unit
  | input :: inputs, arg :: args =>
    if input.shape ≠ arg.shape ∧ input.numel ≠ arg.numel then
      .error (.argumentShape name index input.shape arg.shape)
    else checkArguments name (index + 1) inputs args
  | _, _ => .ok ()

/-- The values of the symbols of the inputs, by identity. -/
def bindings (inputs : List (ExprMatrix α)) (args : List (Grid β)) : Std.HashMap Nat β :=
  Std.HashMap.ofList <| (inputs.zip args).flatMap fun (input, arg) =>
    (input.elements.zip arg.cells).map fun (e, v) => (e.id, v)

/-- The values of the outputs for given values of the inputs. -/
def call (meaning : Interpretation α β) (f : SymbolicFunction α) (args : List (Grid β)) :
    Except AlgebraError (List (Grid β)) := do
  if args.length ≠ f.inputs.length then
    throw (.argumentCount f.name f.inputs.length args.length)
  checkArguments f.name 0 f.inputs args
  let symbols := lookUp meaning (bindings f.inputs args)
  let table := valueTable meaning symbols (evaluationOrder (outputElements f.outputs))
  return f.outputs.map fun m => m.grid.map fun e => lookUp meaning table e.id

end SymbolicFunction

end ExplicitOde
