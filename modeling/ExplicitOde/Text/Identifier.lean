/-!
# Identifiers

A name is a letter or underscore followed by letters, digits and underscores, all of them ASCII.
Model names, symbol names and the names in formulas follow this one rule, so that a name can stand
in generated C code as it is.
-/

namespace ExplicitOde

/-- An identifier starts with an ASCII letter or an underscore. -/
def isNameStart (c : Char) : Bool :=
  c.isAlpha || c == '_'

/-- An identifier goes on with ASCII letters, ASCII digits and underscores. -/
def isNameRest (c : Char) : Bool :=
  c.isAlphanum || c == '_'

/-- The whole text is one identifier. -/
def isIdentifier (name : String) : Bool :=
  match name.toList with
  | [] => false
  | c :: rest => isNameStart c && rest.all isNameRest

end ExplicitOde
