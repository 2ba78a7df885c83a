/-!
# Elementary operations

The operations expressions are made of: thirteen functions of one number and five operations on
two. All but negation can be called by name in formulas, powers as `pow`.
-/

namespace ExplicitOde

/-- Elementary functions of one number. -/
inductive UnaryOp where
  | neg | sin | cos | tan | asin | acos | atan | sinh | cosh | tanh | exp | log | sqrt
  deriving DecidableEq, Repr

namespace UnaryOp

/-- The functions that formulas call by name. -/
def callable : List UnaryOp :=
  [sin, cos, tan, asin, acos, atan, sinh, cosh, tanh, exp, log, sqrt]

/-- The name of the function in formulas and in C. -/
def name : UnaryOp → String
  | neg => "neg"
  | sin => "sin"
  | cos => "cos"
  | tan => "tan"
  | asin => "asin"
  | acos => "acos"
  | atan => "atan"
  | sinh => "sinh"
  | cosh => "cosh"
  | tanh => "tanh"
  | exp => "exp"
  | log => "log"
  | sqrt => "sqrt"

/-- The callable function of a name. -/
def ofName? (name : String) : Option UnaryOp :=
  callable.find? fun op => op.name == name

end UnaryOp

/-- Arithmetic operations on two numbers. -/
inductive BinaryOp where
  | add | sub | mul | div | pow
  deriving DecidableEq, Repr

namespace BinaryOp

/-- The sign between the operands; powers have none and are written as calls. -/
def sign? : BinaryOp → Option Char
  | add => some '+'
  | sub => some '-'
  | mul => some '*'
  | div => some '/'
  | pow => none

end BinaryOp

end ExplicitOde
