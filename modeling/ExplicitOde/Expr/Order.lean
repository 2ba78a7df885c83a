import ExplicitOde.Expr.Basic
import Std.Data.HashSet

/-!
# The order of evaluation

All nodes below some expressions, every node once and after its operands. The traversal keeps its
own stack of nodes to enter and nodes to leave, so that deep expressions need no deep recursion.
-/

namespace ExplicitOde

/-- An entry of the stack of a traversal. -/
inductive Visit (α : Type) where
  /-- The node is to be entered, unless that was done. -/
  | enter (e : Expr α)
  /-- All below the node has been visited. -/
  | leave (e : Expr α)

namespace Visit

variable {α : Type}

/-- A bound on the steps that an entry of the stack takes. -/
def weight : Visit α → Nat
  | enter e => 2 * e.size
  | leave _ => 1

/-- A bound on the steps that a stack takes. -/
def stackWeight (stack : List (Visit α)) : Nat :=
  (stack.map weight).foldr (· + ·) 0

/-- The operands of a node that were not entered, from left to right, and then the node. -/
def below (entered : Std.HashSet Nat) (e : Expr α) : List (Visit α) :=
  (e.operands.filter fun a => !entered.contains a.id).map enter ++ [leave e]

theorem stackWeight_cons (v : Visit α) (stack : List (Visit α)) :
    stackWeight (v :: stack) = v.weight + stackWeight stack := rfl

theorem stackWeight_append (front back : List (Visit α)) :
    stackWeight (front ++ back) = stackWeight front + stackWeight back := by
  induction front with
  | nil => exact (Nat.zero_add _).symm
  | cons v front ih => rw [List.cons_append, stackWeight_cons, ih, stackWeight_cons, Nat.add_assoc]

theorem stackWeight_filter_le (keep : Expr α → Bool) (es : List (Expr α)) :
    stackWeight ((es.filter keep).map enter) ≤ stackWeight (es.map enter) := by
  induction es with
  | nil => simp
  | cons e es ih =>
    by_cases h : keep e <;> simp [stackWeight, h] at ih ⊢ <;> omega

theorem stackWeight_below_lt (entered : Std.HashSet Nat) (e : Expr α) :
    stackWeight (below entered e) < weight (enter e) := by
  have h := stackWeight_filter_le (fun a => !entered.contains a.id) e.operands
  have key : stackWeight (below entered e) =
      stackWeight ((e.operands.filter fun a => !entered.contains a.id).map enter) + 1 := by
    rw [below, stackWeight_append]
    rfl
  rw [key]
  cases e <;> simp_all [Expr.operands, stackWeight, weight, Expr.size] <;> omega

end Visit

variable {α : Type}

/-- Works off a stack: nodes are listed when they are left. -/
def traverse (entered : Std.HashSet Nat) (listed : Array (Expr α)) :
    List (Visit α) → Array (Expr α)
  | [] => listed
  | .leave e :: stack => traverse entered (listed.push e) stack
  | .enter e :: stack =>
    if entered.contains e.id then traverse entered listed stack
    else traverse (entered.insert e.id) listed (Visit.below (entered.insert e.id) e ++ stack)
termination_by stack => Visit.stackWeight stack
decreasing_by
  · simp [Visit.stackWeight_cons, Visit.weight]
  · have : 0 < e.size := by cases e <;> simp [Expr.size]
    simp only [Visit.stackWeight_cons, Visit.weight]
    omega
  · have h := Visit.stackWeight_below_lt (entered.insert e.id) e
    rw [Visit.stackWeight_append, Visit.stackWeight_cons]
    omega

/-- The nodes below the roots, each once, operands before the nodes that use them. -/
def evaluationOrder (roots : List (Expr α)) : List (Expr α) :=
  (traverse ∅ #[] (roots.map .enter)).toList

/-- The first of each run of equal identities is kept: symbols by first appearance. -/
def distinctById (seen : Std.HashSet Nat) : List (Expr α) → List (Expr α)
  | [] => []
  | e :: es =>
    if seen.contains e.id then distinctById seen es
    else e :: distinctById (seen.insert e.id) es

/-- The symbols that the roots depend on, in order of first appearance. -/
def freeSymbols (roots : List (Expr α)) : List (Expr α) :=
  distinctById ∅ ((evaluationOrder roots).filter Expr.isSymbol)

end ExplicitOde
