import ExplicitOde.Document.Basic
import ExplicitOde.Text.Quoted

/-!
# When a document does not say what is wanted

A document can break off, which has no wording here, or be complete and of a wrong form: a
`Misfit`.
-/

namespace ExplicitOde

/-- What was found in a document in place of what was wanted. -/
inductive Found where
  | null
  | bool (value : Bool)
  | integer (value : Int)
  | real (value : Float)
  | string (text : String)
  | array
  | object

/-- What was found, in messages. -/
def Found.text : Found → String
  | null => "null"
  | bool value => s!"boolean `{value}`"
  | integer value => s!"integer `{value}`"
  | real value => s!"floating point `{Layout.report.write value}`"
  | string text => "string " ++ quoted text
  | array => "sequence"
  | object => "map"

/-- The forms that are wanted of a document. -/
inductive Wanted where
  | string | sequence | boolean | path | unit
  /-- The fields of a record. -/
  | record (name : String)

/-- What was wanted, in messages. -/
def Wanted.text : Wanted → String
  | string => "a string"
  | sequence => "a sequence"
  | boolean => "a boolean"
  | path => "path string"
  | unit => "unit"
  | record name => "struct " ++ name

/-- How a complete document can differ from what is wanted. -/
inductive Misfit where
  | wrongType (found : Found) (wanted : Wanted)
  | missingField (name : String)
  | unknownField (name : String) (expected : List String)
  | repeatedField (name : String)
  | unknownVariant (name : String) (expected : List String)
  /-- A record written as a list ends before a field that it needs. -/
  | tooFewItems (count : Nat) (record : String) (fields : Nat)
  /-- A record written as a list has more items than fields. -/
  | tooManyItems (count : Nat)

/-- The names to choose from, in messages. -/
def choiceText (names : List String) : String :=
  match names with
  | [a, b] => s!"`{a}` or `{b}`"
  | names => "one of " ++ String.intercalate ", " (names.map fun name => s!"`{name}`")

/-- The wording of a misfit. -/
def Misfit.message : Misfit → String
  | wrongType found wanted => s!"invalid type: {found.text}, expected {wanted.text}"
  | missingField name => s!"missing field `{name}`"
  | unknownField name expected => s!"unknown field `{name}`, expected {choiceText expected}"
  | repeatedField name => s!"duplicate field `{name}`"
  | unknownVariant name expected => s!"unknown variant `{name}`, expected {choiceText expected}"
  | tooFewItems count record fields =>
    s!"invalid length {count}, expected struct {record} with {fields} elements"
  | tooManyItems count => s!"invalid length {count}, expected fewer elements in array"

/-- Why a document cannot be read as what is wanted. -/
inductive DocumentError where
  /-- The text is no JSON, or stands where a name of a choice must. -/
  | malformed
  | misfit (m : Misfit)

end ExplicitOde
