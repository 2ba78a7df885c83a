import ExplicitOde.Error
import ExplicitOde.Expr.Build
import ExplicitOde.Formula.Parse

/-!
# The expression of a formula

A formula becomes an expression over a table of symbols. Names are looked up in the table; `pi` is
the circle constant unless the table has it. Powers can be written as calls of `pow`, and all other
calls are of the elementary functions by name.
-/

namespace ExplicitOde

variable {α : Type}

/-- Expressions by name; of several entries of one name the first counts. -/
abbrev SymbolTable (α : Type) := List (String × Expr α)

/-- The table of the symbols among some expressions. Of several symbols of one name the last
counts. -/
def SymbolTable.ofExprs (exprs : List (Expr α)) : SymbolTable α :=
  (exprs.filterMap fun e => e.symbolName?.map fun name => (name, e)).reverse

variable [Scalar α]

/-- The expression of a formula. -/
def Formula.lower (table : SymbolTable α) : Formula α → Attempt AlgebraError (Expr α)
  | .number v => Expr.mkConst v
  | .name s =>
    match table.lookup s with
    | some e => pure e
    | none =>
      if s = "pi" then Expr.mkConst (Scalar.pi : α) else throw (.undefinedName s)
  | .neg inner => do
    Expr.mkNeg (← inner.lower table)
  | .binary op lhs rhs => do
    let a ← lhs.lower table
    let b ← rhs.lower table
    Expr.mkBinary op a b
  | .call f args =>
    match args with
    | [base, exponent] =>
      if f = "pow" then do
        let a ← base.lower table
        let b ← exponent.lower table
        Expr.mkBinary .pow a b
      else throw (.unknownFunction f 2)
    | [arg] =>
      match UnaryOp.ofName? f with
      | some op => do
        let a ← arg.lower table
        Expr.mkUnary op a
      | none => throw (.unknownFunction f 1)
    | args => throw (.unknownFunction f args.length)

/-- The expression that a text spells over a table of symbols. -/
def parseExpr (table : SymbolTable α) (text : String) : Attempt AlgebraError (Expr α) :=
  match parseFormula text with
  | .error e => throw (.malformed e)
  | .ok formula => formula.lower table

end ExplicitOde
