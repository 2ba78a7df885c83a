import ExplicitOde.Expr.Order
import Std.Data.HashMap

/-!
# The value of an expression

`Expr.value` is the value of a tree by recursion. `valueTable` has the value of every node of an
evaluation order by identity, each found from the entries of its operands, so that a shared node is
evaluated once.
-/

namespace ExplicitOde

variable {α β : Type}

/-- The value of an expression where symbols have the values of `symbols` by identity. -/
def Expr.value (meaning : Interpretation α β) (symbols : Nat → β) : Expr α → β
  | .const _ v => meaning.constant v
  | .symbol id _ => symbols id
  | .unary _ op a => meaning.unary op (a.value meaning symbols)
  | .binary _ op a b => meaning.binary op (a.value meaning symbols) (b.value meaning symbols)

/-- The value of a root node from values of its operands by identity. -/
def Expr.rootValue (meaning : Interpretation α β) (symbols : Nat → β) (known : Nat → β) :
    Expr α → β
  | .const _ v => meaning.constant v
  | .symbol id _ => symbols id
  | .unary _ op a => meaning.unary op (known a.id)
  | .binary _ op a b => meaning.binary op (known a.id) (known b.id)

/-- An entry of a table of values; an absent one counts as unbound. -/
def lookUp (meaning : Interpretation α β) (table : Std.HashMap Nat β) (id : Nat) : β :=
  table.getD id meaning.unbound

/-- The values of the nodes of an order, by identity. -/
def valueTable (meaning : Interpretation α β) (symbols : Nat → β) (order : List (Expr α)) :
    Std.HashMap Nat β :=
  order.foldl
    (fun table e => table.insert e.id (e.rootValue meaning symbols (lookUp meaning table))) ∅

end ExplicitOde
