import ExplicitOde.Declaration.Codec
import ExplicitOde.Declaration.Validation
import ExplicitOde.Formula.Lower
import ExplicitOde.Model.Basic

/-!
# The model of a declaration

Every declared name becomes a symbol, and the derivatives become expressions over these symbols.
-/

namespace ExplicitOde

/-- Causes for which a text yields no model. -/
inductive DescriptionError where
  | declaration (cause : DeclarationError)
  | model (cause : ModelError)

namespace Declaration

variable {α : Type} [Scalar α]

/-- The expressions of the derivatives from an index on. -/
def rateExprs (table : SymbolTable α) (index : Nat) :
    List String → Attempt DeclarationError (List (Expr α))
  | [] => return []
  | rate :: rates => do
    let e ← (parseExpr table rate).adapt (.invalidRate index)
    return e :: (← rateExprs table (index + 1) rates)

/-- The symbols of the parameters, if there are any. -/
def parameterSymbols (kind : Kind) (d : Declaration) : Build (Option (ExprMatrix α)) :=
  if d.parameters.isEmpty then pure none
  else do return some (← ExprMatrix.namedSymbols kind d.parameters)

/-- The model of a declaration. -/
def toModel (d : Declaration) : Attempt DescriptionError (Model α) := do
  let some representation := Representation.ofName? d.representation |
    throw (.model (.unsupportedKind d.representation))
  let kind := Kind.ofRepresentation representation
  let x ← (ExprMatrix.namedSymbols kind d.x : Build (ExprMatrix α))
  let u ← (ExprMatrix.namedSymbols kind d.u : Build (ExprMatrix α))
  let p ← (d.parameterSymbols kind : Build (Option (ExprMatrix α)))
  let symbols := ([x, u] ++ p.toList).flatMap ExprMatrix.elements
  let rates ← (rateExprs (SymbolTable.ofExprs symbols) 0 d.rates).adapt .declaration
  return {
    name := d.name
    x := x
    u := u
    p := match p with
      | some p => .symbolic p
      | none => .separate []
    rate := ExprMatrix.column kind rates
  }

omit [Scalar α] in
/-- The valid declaration that a text spells. -/
def ofValidText (text : String) : Except DeclarationError Declaration := do
  let d ← ofText text
  d.validate .plain
  return d

/-- The model that a text declares. -/
def modelOfText (text : String) : Attempt DescriptionError (Model α) := do
  match ofValidText text with
  | .error cause => throw (.declaration cause)
  | .ok d => d.toModel

end Declaration

end ExplicitOde
