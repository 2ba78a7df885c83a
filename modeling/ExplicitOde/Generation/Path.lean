/-!
# Paths

A path is a text of names with slashes between them. Empty names and points lead nowhere, so two
paths can be the same without having the same text.
-/

namespace ExplicitOde

/-- The path starts with a slash. -/
def isAbsolute (path : String) : Bool := path.toList.head? == some '/'

/-- A name can be put behind the path as it is: the path is empty or ends in a slash. -/
def isOpen (path : String) : Bool :=
  match path.toList.getLast? with
  | none => true
  | some c => c == '/'

/-- A part below a base. A part that starts with a slash stands for itself. -/
def joinPath (base part : String) : String :=
  if isAbsolute part then part
  else if isOpen base then base ++ part
  else base ++ "/" ++ part

/-- The runs of characters between slashes. -/
def betweenSlashes : List Char → List (List Char)
  | [] => [[]]
  | c :: cs =>
    if c = '/' then [] :: betweenSlashes cs
    else
      match betweenSlashes cs with
      | [] => [[c]]
      | run :: runs => (c :: run) :: runs

/-- The names between the slashes of a path. -/
def pathNames (path : String) : List String :=
  (betweenSlashes path.toList).map String.ofList

/-- The name leads somewhere. -/
def isStep (name : String) : Bool := name != "" && name != "."

/-- The names of a path that lead somewhere. -/
def pathSteps (path : String) : List String :=
  (pathNames path).filter isStep

/-- The path says that it starts where one is. -/
def startsHere (path : String) : Bool := (pathNames path).head? == some "."

/-- The paths start alike and go on by the same steps. -/
def samePath (a b : String) : Bool :=
  isAbsolute a == isAbsolute b && startsHere a == startsHere b && pathSteps a == pathSteps b

/-- The last name of a path, empty ones aside, is a point: it leads to where the names before it
lead. -/
def endsHere (path : String) : Bool :=
  ((pathNames path).filter (· != "")).getLast? == some "."

end ExplicitOde
