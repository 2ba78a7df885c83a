import ExplicitOde.Document.Numeral

/-!
# Documents

A JSON document as far as its text can be read. A text that is no JSON has a document too: it is
`broken` where the text cannot be read on, and the lists and objects around that place are not
closed. Readers of documents go through them from left to right, so the first problem is reported,
whether it is in the text or in what the text says.
-/

namespace ExplicitOde

/-- A JSON document, up to the place where its text breaks off. -/
inductive Document where
  | null
  | bool (value : Bool)
  | number (numeral : Numeral)
  /-- A string; absent if one of its escapes stands for no character. -/
  | string (text : Option String)
  /-- A list, with all its items if it is closed. -/
  | array (items : List Document) (closed : Bool)
  /-- An object, with all its entries if it is closed. Whatever stands before a colon is a key. -/
  | object (entries : List (Document × Document)) (closed : Bool)
  /-- The text cannot be read here. -/
  | broken

namespace Document

/-- A complete string. -/
def text (s : String) : Document := .string (some s)

/-- A complete list. -/
def list (items : List Document) : Document := .array items true

/-- A complete object. -/
def record (entries : List (String × Document)) : Document :=
  .object (entries.map fun (key, value) => (text key, value)) true

/-- The document is a string, complete or not. -/
def isString : Document → Bool
  | .string _ => true
  | _ => false

/-- The text of a key. -/
def keyText : Document → String
  | .string (some s) => s
  | _ => ""

/-- Puts an entry at its place among entries in the order of their keys; an entry of the same key
is replaced. -/
def insertEntry (entry : Document × Document) :
    List (Document × Document) → List (Document × Document)
  | [] => [entry]
  | other :: others =>
    if entry.1.keyText < other.1.keyText then entry :: other :: others
    else if other.1.keyText < entry.1.keyText then other :: insertEntry entry others
    else entry :: others

/-- The document as a table: the entries of an object in the order of their keys, and of several of
one key the last. -/
def sortEntries : Document → Document
  | .object entries closed =>
    .object (entries.foldl (fun sorted entry => insertEntry entry sorted) []) closed
  | d => d

end Document

end ExplicitOde
