import ExplicitOde.Document.Misfit
import ExplicitOde.Error

/-!
# Declarations

A declaration describes a model in a JSON document: the names of states, controls and parameters,
and the derivative of every state as a formula over these names.
-/

namespace ExplicitOde

/-- A model as it is written down. -/
structure Declaration where
  /-- The version of the form of declarations. -/
  schema : String
  name : String
  /-- The name of the symbolic representation to use. -/
  representation : String
  description : Option String
  x : List String
  u : List String
  /-- The parameters; to have none and not to mention any are different declarations of the same
  model. -/
  p : Option (List String)
  /-- The derivatives of the states. -/
  rates : List String
  deriving DecidableEq, Repr

namespace Declaration

/-- The lists in which symbols are declared. -/
inductive Role where
  | state | control | parameter
  deriving DecidableEq, Repr

/-- The field of a list. -/
def Role.field : Role → String
  | state => "x"
  | control => "u"
  | parameter => "p"

/-- The names of the parameters. -/
def parameters (d : Declaration) : List String := d.p.getD []

/-- The declared names with their lists, in the order in which they are declared. -/
def symbols (d : Declaration) : List (Role × String) :=
  d.x.map (Role.state, ·) ++ d.u.map (Role.control, ·) ++ d.parameters.map (Role.parameter, ·)

/-- The versions of declarations that are understood. -/
def supportedSchemas : List String := ["1.0"]

end Declaration

/-- Causes for which a text is no declaration of a model. -/
inductive DeclarationError where
  /-- The document is not of the form of a declaration. -/
  | document (cause : DocumentError)
  | unsupportedSchema (version : String)
  | missingStates
  | invalidName (name : String)
  | invalidSymbol (role : Declaration.Role) (name : String)
  | repeatedSymbol (name : String)
  | unusedSymbol (role : Declaration.Role) (name : String)
  /-- There are more or fewer derivatives than states. -/
  | rateCount (states rates : Nat)
  | blankRate (index : Nat)
  | invalidRate (index : Nat) (cause : AlgebraError)

namespace DeclarationError

/-- The place of a derivative. -/
def ratePlace (index : Nat) : String := s!"f_expl[{index}]"

/-- The wording of a cause. -/
def message : DeclarationError → String
  | document (.misfit m) => "Failed to parse JSON: " ++ m.message
  | document .malformed => "Failed to parse JSON: the text cannot be read"
  | unsupportedSchema version =>
    s!"Unsupported schema version '{version}'. Supported versions: " ++
      String.intercalate ", " Declaration.supportedSchemas
  | missingStates => "Model must declare at least one state in 'x'"
  | invalidName name => s!"Invalid model name '{name}': expected a non-empty identifier"
  | invalidSymbol role name => s!"Invalid symbol name '{name}' in '{role.field}'"
  | repeatedSymbol name => s!"Duplicate symbol name: '{name}'"
  | unusedSymbol role name => s!"Symbol '{name}' declared in '{role.field}' is not used in 'f_expl'"
  | rateCount states rates =>
    s!"'f_expl' has {rates} expression(s) but 'x' declares {states} state(s)"
  | blankRate index => s!"Empty expression in {ratePlace index}"
  | invalidRate index cause => s!"Invalid expression in {ratePlace index}: {cause.message}"

end DeclarationError

end ExplicitOde
