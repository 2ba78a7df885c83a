import ExplicitOde.Document.Basic
import ExplicitOde.Text.Quoted

/-!
# Writing documents

The JSON text of a document: without blanks, or with every item and entry on a line of its own,
two blanks deeper than what holds it.
-/

namespace ExplicitOde

namespace Document

/-- A character inside a string: quotes, backslashes and controls are escaped. -/
def stringChar (c : Char) : List Char :=
  match c with
  | '"' => ['\\', '"']
  | '\\' => ['\\', '\\']
  | '\x08' => ['\\', 'b']
  | '\x0c' => ['\\', 'f']
  | '\n' => ['\\', 'n']
  | '\r' => ['\\', 'r']
  | '\t' => ['\\', 't']
  | c =>
    if c.toNat < 0x20 then
      let digits := hexDigits c.toNat
      '\\' :: 'u' :: List.replicate (4 - digits.length) '0' ++ digits
    else [c]

/-- The text of a string. -/
def stringText (s : String) : List Char :=
  '"' :: s.toList.flatMap stringChar ++ ['"']

/-- The text of a numeral. -/
def numeralText (n : Numeral) : List Char :=
  (if n.negative then ['-'] else []) ++ n.whole ++
    (match n.fraction with
      | some digits => '.' :: digits
      | none => []) ++
    (match n.exponent with
      | some (negative, digits) => 'e' :: (if negative then ['-'] else []) ++ digits
      | none => [])

/-- The text of a document that holds no other. -/
def leafText : Document → List Char
  | null => "null".toList
  | bool true => "true".toList
  | bool false => "false".toList
  | number n => numeralText n
  | string (some s) => stringText s
  | _ => []

mutual

/-- The text of a document without blanks. -/
def compactText : Document → List Char
  | array items _ => '[' :: compactItems items ++ [']']
  | object entries _ => '\x7b' :: compactEntries entries ++ ['\x7d']
  | d => leafText d

/-- The texts of items, with commas between them. -/
def compactItems : List Document → List Char
  | [] => []
  | [item] => compactText item
  | item :: items => compactText item ++ ',' :: compactItems items

/-- The texts of entries, with commas between them. -/
def compactEntries : List (Document × Document) → List Char
  | [] => []
  | [(key, value)] => compactText key ++ ':' :: compactText value
  | (key, value) :: entries =>
    compactText key ++ ':' :: compactText value ++ ',' :: compactEntries entries

end

/-- A new line, indented to a depth. -/
def newLine (depth : Nat) : List Char :=
  '\n' :: List.replicate (2 * depth) ' '

mutual

/-- The text of a document at a depth, on several lines. -/
def prettyText (depth : Nat) : Document → List Char
  | array [] _ => ['[', ']']
  | array items _ => '[' :: prettyItems (depth + 1) items ++ newLine depth ++ [']']
  | object [] _ => ['\x7b', '\x7d']
  | object entries _ => '\x7b' :: prettyEntries (depth + 1) entries ++ newLine depth ++ ['\x7d']
  | d => leafText d

/-- The texts of items, each on its line. -/
def prettyItems (depth : Nat) : List Document → List Char
  | [] => []
  | [item] => newLine depth ++ prettyText depth item
  | item :: items => newLine depth ++ prettyText depth item ++ ',' :: prettyItems depth items

/-- The texts of entries, each on its line. -/
def prettyEntries (depth : Nat) : List (Document × Document) → List Char
  | [] => []
  | [(key, value)] => newLine depth ++ leafText key ++ ':' :: ' ' :: prettyText depth value
  | (key, value) :: entries =>
    newLine depth ++ leafText key ++ ':' :: ' ' :: prettyText depth value ++
      ',' :: prettyEntries depth entries

end

/-- The text of a document without blanks. -/
def compact (d : Document) : String := String.ofList d.compactText

/-- The text of a document on several lines. -/
def pretty (d : Document) : String := String.ofList (d.prettyText 0)

end Document

end ExplicitOde
