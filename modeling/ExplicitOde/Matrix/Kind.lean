/-!
# Kinds of matrices

Symbolic matrices belong to one of two representations that never mix. Numeric matrices, which hold
constants only, combine with either.
-/

namespace ExplicitOde

/-- The two symbolic representations. -/
inductive Representation where
  | sx | mx
  deriving DecidableEq, Repr

namespace Representation

/-- The name of a representation. -/
def name : Representation → String
  | sx => "SX"
  | mx => "MX"

/-- Both representations, in the order in which messages list them. -/
def all : List Representation := [sx, mx]

/-- The representation of a name. -/
def ofName? (name : String) : Option Representation :=
  all.find? fun r => r.name == name

end Representation

/-- The kind of a matrix: a symbolic representation, or numeric. -/
inductive Kind where
  | sx | mx | dm
  deriving DecidableEq, Repr

namespace Kind

/-- The name of a kind. -/
def name : Kind → String
  | sx => "SX"
  | mx => "MX"
  | dm => "DM"

/-- The kind of the symbolic matrices of a representation. -/
def ofRepresentation : Representation → Kind
  | .sx => sx
  | .mx => mx

/-- The representation of a kind; numeric matrices have none. -/
def representation? : Kind → Option Representation
  | sx => some .sx
  | mx => some .mx
  | dm => none

/-- The kind of a combination of two matrices, if they can be combined. -/
def combine? (a b : Kind) : Option Kind :=
  if a = b then some a
  else if a = dm then some b
  else if b = dm then some a
  else none

end Kind

end ExplicitOde
