import ExplicitOde.Matrix.Basic
import ExplicitOde.Text.Identifier

/-!
# Models

A model is an explicit ordinary differential equation: the derivative of the states is a column of
expressions in states, controls and parameters. `Model.resolve` checks what can be checked before
any derivative is built.
-/

namespace ExplicitOde

/-- How the parameters of a model are given. -/
inductive Parameters (α : Type) where
  /-- As a column of symbols. -/
  | symbolic (p : ExprMatrix α)
  /-- As separate matrices; only their absence is allowed. -/
  | separate (parts : List (ExprMatrix α))

/-- An explicit ordinary differential equation. -/
structure Model (α : Type) where
  /-- The word that the names of all generated functions start with. -/
  name : String
  x : ExprMatrix α
  u : ExprMatrix α
  p : Parameters α
  /-- The derivative of the states. -/
  rate : ExprMatrix α

/-- Causes for which a model has no sensitivities. -/
inductive ModelError where
  | invalidName (name : String)
  /-- Parameters are given as separate matrices. -/
  | separateParameters (count : Nat)
  /-- The derivative of the states is not symbolic. -/
  | unsupportedKind (found : String)
  /-- The parts of the model do not fit. -/
  | algebra (cause : AlgebraError)

/-- The wording of a cause. -/
def ModelError.message : ModelError → String
  | invalidName name => s!"Invalid model name '{name}': expected a non-empty identifier"
  | separateParameters count =>
    s!"p is a non-empty collection of {count} element(s). It should be either an empty " ++
      "collection or a symbolic vector."
  | unsupportedKind found =>
    s!"Invalid type for f_expl: {found}. Possible types are " ++
      String.intercalate " and " (Representation.all.map Representation.name) ++ "."
  | algebra cause => "Shape mismatch: " ++ cause.message

/-- What a model amounts to. -/
structure ResolvedModel (α : Type) where
  nx : Nat
  nu : Nat
  np : Nat
  /-- The representation of everything that is built for the model. -/
  representation : Representation
  /-- The parameters, a matrix without elements if there are none. -/
  p : ExprMatrix α

namespace Model

variable {α : Type}

/-- Checks a model and finds its dimensions and its representation. -/
def resolve (m : Model α) : Attempt ModelError (ResolvedModel α) := do
  if !isIdentifier m.name then
    throw (.invalidName m.name)
  let some representation := m.rate.kind.representation? |
    throw (.unsupportedKind m.rate.kind.name)
  let nx := m.x.rows
  let nu := m.u.rows
  match m.p with
  | .symbolic p => return ⟨nx, nu, p.rows, representation, p⟩
  | .separate [] =>
    let p ← (ExprMatrix.symbols (Kind.ofRepresentation representation) "p" 0 0 : Build _)
    return ⟨nx, nu, 0, representation, p⟩
  | .separate parts => throw (.separateParameters parts.length)

end Model

end ExplicitOde
