/-!
# What can be wrong with a formula

A formula is refused at a position, the offset of a byte in its UTF-8 text, for one of a few
problems.
-/

namespace ExplicitOde

/-- The tokens of one character. -/
inductive Mark where
  | plus | minus | star | slash | caret | leftParen | rightParen | comma
  deriving DecidableEq, Repr

namespace Mark

/-- All marks. -/
def all : List Mark := [plus, minus, star, slash, caret, leftParen, rightParen, comma]

/-- The character of a mark. -/
def char : Mark → Char
  | plus => '+'
  | minus => '-'
  | star => '*'
  | slash => '/'
  | caret => '^'
  | leftParen => '('
  | rightParen => ')'
  | comma => ','

/-- The mark of a character. -/
def ofChar? (c : Char) : Option Mark :=
  all.find? fun m => m.char == c

/-- A mark in messages: operators with their sign, the others by name. -/
def text : Mark → String
  | leftParen => "LParen"
  | rightParen => "RParen"
  | comma => "Comma"
  | m => s!"Op('{m.char}')"

end Mark

/-- The problems for which a text is no formula. -/
inductive FormulaProblem where
  | invalidNumber (text : String)
  | unexpectedCharacter (c : Char)
  | emptyFormula
  | trailingInput
  | noClosing
  | noClosingAfterArguments
  | unexpectedMark (mark : Mark)
  | unexpectedEnd
  deriving DecidableEq, Repr

/-- The wording of a problem. -/
def FormulaProblem.text : FormulaProblem → String
  | invalidNumber text => s!"invalid number '{text}'"
  | unexpectedCharacter c => s!"unexpected character '{c}'"
  | emptyFormula => "empty expression"
  | trailingInput => "unexpected trailing input"
  | noClosing => "expected ')'"
  | noClosingAfterArguments => "expected ')' after arguments"
  | unexpectedMark mark => "unexpected token " ++ mark.text
  | unexpectedEnd => "unexpected end of expression"

/-- A refused text, with the position of the problem. -/
structure FormulaError where
  source : String
  position : Nat
  problem : FormulaProblem
  deriving DecidableEq, Repr

/-- The wording of a refusal. -/
def FormulaError.message (e : FormulaError) : String :=
  s!"Failed to parse '{e.source}' at position {e.position}: {e.problem.text}"

end ExplicitOde
