import ExplicitOde.Formula.Problem
import ExplicitOde.Grid
import ExplicitOde.Matrix.Kind
import ExplicitOde.Text.Quoted

/-!
# Errors of symbolic computation

The causes for which building, differentiating, evaluating or emitting expressions can fail, and
their wording in one place, `AlgebraError.message`.
-/

namespace ExplicitOde

/-- Operations on matrices that can be refused. -/
inductive Operation where
  | fromElements | plus | minus | product | beside | above | directional | function
  deriving DecidableEq, Repr

/-- The name of an operation in messages. -/
def Operation.name : Operation → String
  | fromElements => "from_elements"
  | plus => "plus"
  | minus => "minus"
  | product => "mtimes"
  | beside => "horzcat"
  | above => "vertcat"
  | directional => "jtimes"
  | function => "Function"

/-- A shape in messages. -/
def shapeText (shape : Shape) : String :=
  s!"({shape.1}, {shape.2})"

/-- The places where nothing but symbols is allowed. -/
inductive SymbolPlace where
  /-- What a derivative is taken with respect to. -/
  | differentiation (operation : Operation)
  /-- An input of a function. -/
  | input (index : Nat) (function : String)
  deriving DecidableEq, Repr

/-- A place in messages. -/
def SymbolPlace.text : SymbolPlace → String
  | differentiation operation => "Differentiation argument of " ++ operation.name
  | input index function => s!"Input {index} of function '{function}'"

/-- Causes of failure in symbolic computation. -/
inductive AlgebraError where
  /-- The shapes of the operands do not fit. -/
  | shapes (operation : Operation) (left right : Shape)
  /-- The operands belong to different representations. -/
  | kinds (operation : Operation) (left right : Kind)
  /-- Something other than symbols stands where only symbols may. -/
  | notSymbols (place : SymbolPlace)
  /-- There is no element at this position. -/
  | noElement (row col : Nat) (shape : Shape)
  /-- Outputs depend on symbols that are no inputs. -/
  | freeSymbols (function : String) (symbols : List String)
  /-- A symbol occurs twice among the inputs. -/
  | repeatedInput (function symbol : String)
  /-- A function is called with a wrong number of arguments. -/
  | argumentCount (function : String) (expected actual : Nat)
  /-- A function is called with an argument of a wrong shape. -/
  | argumentShape (function : String) (index : Nat) (expected actual : Shape)
  /-- A text is no formula. -/
  | malformed (problem : FormulaError)
  /-- A name stands for nothing. -/
  | undefinedName (name : String)
  /-- The gateway and the precision of numbers do not go together. -/
  | gatewayPrecision
  /-- No function has this name and this number of arguments. -/
  | unknownFunction (name : String) (arity : Nat)

/-- The wording of a cause. -/
def AlgebraError.message : AlgebraError → String
  | shapes operation left right =>
    s!"Dimension mismatch in {operation.name}: {shapeText left} vs {shapeText right}"
  | kinds operation left right =>
    s!"Cannot combine {left.name} and {right.name} expressions in {operation.name}"
  | notSymbols place => place.text ++ " must be purely symbolic"
  | noElement row col shape =>
    s!"Index ({row}, {col}) out of bounds for a {shape.1}x{shape.2} matrix"
  | freeSymbols function symbols =>
    s!"Function '{function}' has free symbols: {quotedList symbols}"
  | repeatedInput function symbol =>
    s!"Function '{function}' lists symbol '{symbol}' more than once in its inputs"
  | argumentCount function expected actual =>
    s!"Function '{function}' expects {expected} arguments, got {actual} arguments"
  | argumentShape function index expected actual =>
    s!"Function '{function}' expects {shapeText expected} for i{index}, got {shapeText actual}"
  | malformed problem => problem.message
  | undefinedName name => s!"Undefined symbol '{name}'"
  | gatewayPrecision =>
    "Invalid code generation options: the MEX gateway requires double precision"
  | unknownFunction name arity =>
    s!"Unsupported function call '{name}' with {arity} argument(s)"

end ExplicitOde
