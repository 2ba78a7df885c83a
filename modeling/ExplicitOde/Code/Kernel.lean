import ExplicitOde.Function.Basic
import Std.Data.HashMap

/-!
# Kernels

A kernel is a straight-line program that computes the outputs of a function from its inputs. It
assigns a numbered slot for every node below the outputs that is no constant, in evaluation order,
so that shared nodes are computed once and a slot is read only after its assignment. Constants are
written where they are used.
-/

namespace ExplicitOde

/-- What is read in a kernel: a number, or the value assigned to a slot before. -/
inductive Operand (α : Type) where
  | number (value : α)
  | slot (index : Nat)
  deriving DecidableEq, Repr

/-- What is assigned to a slot. -/
inductive SlotValue (α : Type) where
  /-- An element of an input, or zero where the input is not given. -/
  | argument (input element : Nat)
  | unary (op : UnaryOp) (a : Operand α)
  | binary (op : BinaryOp) (a b : Operand α)
  deriving DecidableEq, Repr

/-- A straight-line program. -/
structure Kernel (α : Type) where
  /-- The slots that are assigned, in order. -/
  slots : List (SlotValue α)
  /-- For every output, what its elements are. -/
  results : List (List (Operand α))
  deriving DecidableEq, Repr

namespace Kernel

variable {α : Type}

/-- The places of the symbols of an input, by identity. -/
def inputPlaces (index : Nat) (input : ExprMatrix α) : List (Nat × Nat × Nat) :=
  input.elements.zipIdx.filterMap fun (e, k) => e.symbolId?.map fun id => (id, index, k)

/-- The places of the symbols of all inputs, by identity. -/
def places (inputs : List (ExprMatrix α)) : Std.HashMap Nat (Nat × Nat) :=
  Std.HashMap.ofList (inputs.zipIdx.flatMap fun (input, i) => inputPlaces i input)

/-- A kernel while it is made: how the nodes seen so far are read, by identity, and the slots
assigned for them. -/
structure Draft (α : Type) where
  operands : Std.HashMap Nat (Operand α)
  slots : Array (SlotValue α)

namespace Draft

/-- How a node is read. Nodes are seen before they are used, so there always is an entry. -/
def operand (draft : Draft α) (e : Expr α) : Operand α :=
  draft.operands.getD e.id (.slot 0)

/-- Assigns the next slot for a node. -/
def assign (draft : Draft α) (id : Nat) (value : SlotValue α) : Draft α :=
  ⟨draft.operands.insert id (.slot draft.slots.size), draft.slots.push value⟩

/-- Adds a node. -/
def add (function : String) (symbols : Std.HashMap Nat (Nat × Nat)) (draft : Draft α) :
    Expr α → Except AlgebraError (Draft α)
  | .const id v => .ok { draft with operands := draft.operands.insert id (.number v) }
  | .symbol id name =>
    match symbols[id]? with
    | some (input, element) => .ok (draft.assign id (.argument input element))
    | none => .error (.freeSymbols function [name])
  | .unary id op a => .ok (draft.assign id (.unary op (draft.operand a)))
  | .binary id op a b => .ok (draft.assign id (.binary op (draft.operand a) (draft.operand b)))

end Draft

/-- The kernel of a function. -/
def ofFunction (f : SymbolicFunction α) : Except AlgebraError (Kernel α) := do
  let order := evaluationOrder (SymbolicFunction.outputElements f.outputs)
  let draft ← order.foldlM (Draft.add f.name (places f.inputs)) ⟨∅, #[]⟩
  return ⟨draft.slots.toList, f.outputs.map fun m => m.elements.map draft.operand⟩

end Kernel

end ExplicitOde
