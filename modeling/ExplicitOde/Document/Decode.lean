import ExplicitOde.Document.Misfit
import ExplicitOde.Document.Reader

/-!
# Decoding documents

Readers of strings, lists, choices and records in documents. Each goes through its document from
left to right and stops at the first problem. A record is an object of its fields in any order, or
a list of its fields in their own order.
-/

namespace ExplicitOde

namespace Document

/-- Results of decoding. -/
abbrev Decoded (β : Type) := Except DocumentError β

/-- Where a document comes from; this decides how surplus items of a record are reported. -/
inductive Source where
  /-- A text that is being read. -/
  | text
  /-- A table that was read before. -/
  | table
  deriving DecidableEq

/-- What a document is, if it is something. -/
def found : Document → Decoded Found
  | null => .ok .null
  | bool value => .ok (.bool value)
  | number n =>
    match n.value with
    | .integer i => .ok (.integer i)
    | .real v => .ok (.real v)
    | .outOfRange => .error .malformed
  | string (some s) => .ok (.string s)
  | string none => .error .malformed
  | array _ _ => .ok .array
  | object _ _ => .ok .object
  | broken => .error .malformed

/-- The document is something else than wanted. -/
def wrongType {β : Type} (wanted : Wanted) (d : Document) : Decoded β := do
  throw (.misfit (.wrongType (← d.found) wanted))

/-- A string. -/
def decodeString (wanted : Wanted) (d : Document) : Decoded String :=
  match d with
  | string (some s) => .ok s
  | d => d.wrongType wanted

/-- A truth value. -/
def decodeBool (d : Document) : Decoded Bool :=
  match d with
  | bool value => .ok value
  | d => d.wrongType .boolean

/-- A closed list of items. -/
def decodeList {β : Type} (item : Document → Decoded β) (d : Document) : Decoded (List β) :=
  match d with
  | array items closed => do
    let values ← items.mapM item
    if closed then return values else throw .malformed
  | d => d.wrongType .sequence

/-- A list of strings. -/
def decodeStrings (d : Document) : Decoded (List String) :=
  d.decodeList (decodeString .string)

/-- Something, or `null` for nothing. -/
def decodeOption {β : Type} (some? : Document → Decoded β) (d : Document) : Decoded (Option β) :=
  match d with
  | null => .ok none
  | d => do return some (← some? d)

/-- The value of a name of a choice. -/
def decodeVariantName {β : Type} (variants : List (String × β)) (name : String) : Decoded β :=
  match variants.lookup name with
  | some value => .ok value
  | none => .error (.misfit (.unknownVariant name (variants.map Prod.fst)))

/-- A choice: its name, or an object whose one entry has the name and nothing. -/
def decodeVariant {β : Type} (variants : List (String × β)) (d : Document) : Decoded β :=
  match d with
  | string (some name) => decodeVariantName variants name
  | object ((string (some name), content) :: others) closed => do
    let value ← decodeVariantName variants name
    match content with
    | null => if closed && others.isEmpty then return value else throw .malformed
    | content => content.wrongType .unit
  | _ => .error .malformed

/-! ## Records -/

/-- How a record is read into a draft that has its absent fields filled in. -/
structure RecordForm (β : Type) where
  name : String
  /-- The fields in their order. -/
  fields : List String
  /-- The fields that an object must have. -/
  required : List String
  /-- The fields that a list must have. -/
  requiredInList : List String
  /-- Entries of other names are passed over. -/
  skipsUnknown : Bool
  /-- Reads a field into the draft. -/
  field : String → Document → β → Decoded β

variable {β : Type}

/-- Reads the entries of an object; `seen` are the fields that were read. -/
def readFields (form : RecordForm β) (seen : List String) (draft : β) :
    List (Document × Document) → Decoded (List String × β)
  | [] => .ok (seen, draft)
  | (key, value) :: entries =>
    match key with
    | string (some name) =>
      if form.fields.contains name then
        if seen.contains name then .error (.misfit (.repeatedField name))
        else
          match form.field name value draft with
          | .error e => .error e
          | .ok draft => readFields form (name :: seen) draft entries
      else if form.skipsUnknown then readFields form seen draft entries
      else .error (.misfit (.unknownField name form.fields))
    | _ => .error .malformed

/-- Reads the items of a list as the fields of these names; also the names without items and the
items without names. -/
def readItemFields (form : RecordForm β) (draft : β) :
    List String → List Document → Decoded (β × List String × List Document)
  | name :: names, item :: items =>
    match form.field name item draft with
    | .error e => .error e
    | .ok draft => readItemFields form draft names items
  | names, items => .ok (draft, names, items)

/-- A record from the entries of an object. -/
def decodeEntries (form : RecordForm β) (draft : β) (entries : List (Document × Document))
    (closed : Bool) : Decoded β := do
  let (seen, draft) ← readFields form [] draft entries
  if !closed then throw .malformed
  match form.required.find? fun name => !seen.contains name with
  | some name => throw (.misfit (.missingField name))
  | none => return draft

/-- A record from the items of a list. -/
def decodeItems (source : Source) (form : RecordForm β) (draft : β) (items : List Document)
    (closed : Bool) : Decoded β := do
  let (draft, absent, surplus) ← readItemFields form draft form.fields items
  if !surplus.isEmpty then
    match source with
    | .text => throw .malformed
    | .table => throw (.misfit (.tooManyItems items.length))
  if !closed then throw .malformed
  match absent.find? form.requiredInList.contains with
  | some name =>
    throw (.misfit (.tooFewItems (form.fields.idxOf name) form.name form.fields.length))
  | none => return draft

/-- A record, starting from a draft. -/
def decodeRecord (source : Source) (form : RecordForm β) (draft : β) (d : Document) : Decoded β :=
  match d with
  | object entries closed => decodeEntries form draft entries closed
  | array items closed => decodeItems source form draft items closed
  | d => d.wrongType (.record form.name)

/-- What a text says, if it is one document and nothing else. -/
def decodeText (decode : Document → Decoded β) (text : String) : Decoded β := do
  let (d, alone) := read text
  let value ← decode d
  if alone then return value else throw .malformed

end Document

end ExplicitOde
