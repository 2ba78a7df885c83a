import ExplicitOde.Declaration.Basic
import ExplicitOde.Document.Decode
import ExplicitOde.Document.Writer

/-!
# Declarations as documents

A declaration is an object of eight fields, or a list of them. Other fields are refused, so that a
misspelt name is not taken for an absent one. `schema`, `name`, `x` and `f_expl` must be there.
-/

namespace ExplicitOde

namespace Declaration

/-- A declaration with every field absent that may be. -/
def blank : Declaration :=
  ⟨"", "", Representation.sx.name, none, [], [], none, []⟩

/-- Reads a field. -/
def readField (field : String) (value : Document) (d : Declaration) :
    Document.Decoded Declaration :=
  match field with
  | "schema" => do return { d with schema := ← value.decodeString .string }
  | "name" => do return { d with name := ← value.decodeString .string }
  | "representation" => do return { d with representation := ← value.decodeString .string }
  | "description" => do
    return { d with description := ← value.decodeOption (Document.decodeString .string) }
  | "x" => do return { d with x := ← value.decodeStrings }
  | "u" => do return { d with u := ← value.decodeStrings }
  | "p" => do return { d with p := ← value.decodeOption Document.decodeStrings }
  | "f_expl" => do return { d with rates := ← value.decodeStrings }
  | _ => .ok d

/-- The form of declarations. -/
def form : Document.RecordForm Declaration where
  name := "JsonModel"
  fields := ["schema", "name", "representation", "description", "x", "u", "p", "f_expl"]
  required := ["schema", "name", "x", "f_expl"]
  requiredInList := ["schema", "name", "description", "x", "f_expl"]
  skipsUnknown := false
  field := readField

/-- Only declarations of a supported version are understood. -/
def checkSchema (d : Declaration) : Except DeclarationError Declaration :=
  if supportedSchemas.contains d.schema then .ok d else .error (.unsupportedSchema d.schema)

/-- The declaration that was decoded, if its version is supported. -/
def accept (decoded : Document.Decoded Declaration) : Except DeclarationError Declaration :=
  match decoded with
  | .ok d => d.checkSchema
  | .error cause => .error (.document cause)

/-- The declaration that a text spells. -/
def ofText (text : String) : Except DeclarationError Declaration :=
  accept (Document.decodeText (Document.decodeRecord .text form blank) text)

/-- The declaration that a document is, read as a table. -/
def ofDocument (d : Document) : Except DeclarationError Declaration :=
  accept (Document.decodeRecord .table form blank d.sortEntries)

/-- An entry of a field that may be absent. -/
def optionalEntry {β : Type} (field : String) (write : β → Document) :
    Option β → List (String × Document)
  | some value => [(field, write value)]
  | none => []

/-- A list of names or formulas. -/
def textList (texts : List String) : Document :=
  Document.list (texts.map Document.text)

/-- A declaration as a document. -/
def toDocument (d : Declaration) : Document :=
  Document.record <|
    [("schema", Document.text d.schema), ("name", Document.text d.name),
      ("representation", Document.text d.representation)] ++
    optionalEntry "description" Document.text d.description ++
    [("x", textList d.x), ("u", textList d.u)] ++
    optionalEntry "p" textList d.p ++
    [("f_expl", textList d.rates)]

/-- The text of a declaration, on several lines. -/
def toText (d : Declaration) : String := d.toDocument.pretty

end Declaration

end ExplicitOde
