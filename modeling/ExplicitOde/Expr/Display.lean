import ExplicitOde.Expr.Basic

/-!
# Expression texts

Infix operations stand in parentheses with their operands, functions and powers are calls, and a
negation stands in parentheses with its sign. No blanks.
-/

namespace ExplicitOde

variable {α : Type} [Written α]

/-- The text of an expression. -/
def Expr.display : Expr α → String
  | .const _ v => Written.display v
  | .symbol _ name => name
  | .unary _ .neg a => "(-" ++ a.display ++ ")"
  | .unary _ op a => op.name ++ "(" ++ a.display ++ ")"
  | .binary _ op a b =>
    match op.sign? with
    | some sign => "(" ++ a.display ++ sign.toString ++ b.display ++ ")"
    | none => "pow(" ++ a.display ++ "," ++ b.display ++ ")"

end ExplicitOde
