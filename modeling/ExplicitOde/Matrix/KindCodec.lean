import ExplicitOde.Document.Decode
import ExplicitOde.Matrix.Kind

/-!
# Kinds as documents

Representations and kinds are documents by their names.
-/

namespace ExplicitOde

/-- The representations by name. -/
def Representation.variants : List (String × Representation) :=
  all.map fun r => (r.name, r)

/-- The representation that a document names. -/
def Representation.ofDocument (d : Document) : Document.Decoded Representation :=
  d.decodeVariant variants

/-- A representation as a document. -/
def Representation.toDocument (r : Representation) : Document := Document.text r.name

/-- The kinds by name. -/
def Kind.variants : List (String × Kind) :=
  [sx, mx, dm].map fun k => (k.name, k)

/-- The kind that a document names. -/
def Kind.ofDocument (d : Document) : Document.Decoded Kind :=
  d.decodeVariant variants

/-- A kind as a document. -/
def Kind.toDocument (k : Kind) : Document := Document.text k.name

end ExplicitOde
