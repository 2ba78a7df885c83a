import ExplicitOde.Code.Kernel
import ExplicitOde.Code.Names

/-!
# Statements of a kernel

The C text of a kernel. Slots are local variables, declared in rows of sixteen. Every operation is
in parentheses or a call, so that its text can be an operand wherever a variable can.
-/

namespace ExplicitOde

namespace Code

variable {α : Type}

/-- The literal of a number. Numbers that C has no literal for are macros of its math library, and
negative numbers stand in parentheses. -/
def literal [Written α] (floats : FloatWidth) (v : α) : String :=
  if Written.isNaN v then "NAN"
  else
    match Written.infinite? v with
    | some negative => if negative then "(-INFINITY)" else "INFINITY"
    | none =>
      let text := Written.literal v ++ floats.ending
      if text.toList.head? == some '-' then "(" ++ text ++ ")" else text

/-- The variable of a slot. -/
def slotName (index : Nat) : String := s!"a{index}"

/-- The text of an operand. -/
def operandText [Written α] (floats : FloatWidth) : Operand α → String
  | .number v => literal floats v
  | .slot index => slotName index

/-- The text of what is assigned to a slot. -/
def slotText [Written α] (floats : FloatWidth) : SlotValue α → String
  | .argument input element => s!"arg[{input}] ? arg[{input}][{element}] : 0"
  | .unary .neg a => "(-" ++ operandText floats a ++ ")"
  | .unary op a => op.name ++ floats.ending ++ "(" ++ operandText floats a ++ ")"
  | .binary op a b =>
    match op.sign? with
    | some sign => "(" ++ operandText floats a ++ sign.toString ++ operandText floats b ++ ")"
    | none =>
      "pow" ++ floats.ending ++ "(" ++ operandText floats a ++ "," ++ operandText floats b ++ ")"

/-- The numbers below a bound in rows of sixteen, the last row with what is left. -/
def slotRows (count : Nat) : List (List Nat) :=
  (List.range ((count + 15) / 16)).map fun row =>
    List.range' (16 * row) (min 16 (count - 16 * row))

/-- The declaration of some slots. -/
def declarationLine (slots : List Nat) : String :=
  s!"  {realType} " ++ String.intercalate ", " (slots.map slotName) ++ ";"

/-- The assignment of a slot. -/
def assignmentLine [Written α] (floats : FloatWidth) (index : Nat) (value : SlotValue α) :
    String :=
  s!"  {slotName index}={slotText floats value};"

/-- The statements that hand out an output, if it is asked for. An output without elements needs
none. -/
def resultLines [Written α] (floats : FloatWidth) (output : Nat) (elements : List (Operand α)) :
    List String :=
  if elements.isEmpty then []
  else
    s!"  if (res[{output}]!=0) \x7b" ::
      (elements.zipIdx.map fun (e, k) => s!"    res[{output}][{k}]={operandText floats e};") ++
      ["  \x7d"]

/-- The statements of a kernel. -/
def kernelLines [Written α] (floats : FloatWidth) (kernel : Kernel α) : List String :=
  (slotRows kernel.slots.length).map declarationLine ++
    (kernel.slots.zipIdx.map fun (value, k) => assignmentLine floats k value) ++
    kernel.results.zipIdx.flatMap fun (elements, o) => resultLines floats o elements

end Code

end ExplicitOde
