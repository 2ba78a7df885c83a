import ExplicitOde.Proofs.Expr.Order
import Mathlib.Logic.Relator

/-!
# Expressions that differ in identities and names

A relation between the identities of two sets of nodes, one to one in both directions, relates the
trees that have the same operations on the same constants, node by node with related identities:
`Expr.Alike`. Names of symbols do not count.

The traversal asks of an identity only whether it was met before. **So expressions that are alike
are traversed alike**: `evaluationOrder_alike`.
-/

namespace ExplicitOde

open Relator (BiUnique)

variable {α : Type} {ρ : Nat → Nat → Prop}

/-- Identities that are related one to one are equal on both sides or on neither. -/
theorem eq_iff_of_biUnique (hρ : BiUnique ρ) {i i' j j' : Nat} (h : ρ i i') (h' : ρ j j') :
    i = j ↔ i' = j' := by
  constructor
  · rintro rfl
    exact hρ.2 h h'
  · rintro rfl
    exact hρ.1 h h'

theorem beq_eq_of_biUnique (hρ : BiUnique ρ) {i i' j j' : Nat} (h : ρ i i') (h' : ρ j j') :
    (i == j) = (i' == j') := by
  rw [Bool.eq_iff_iff, beq_iff_eq, beq_iff_eq]
  exact eq_iff_of_biUnique hρ h h'

namespace Expr

/-- The same tree, where identities are related. -/
inductive Alike (ρ : Nat → Nat → Prop) : Expr α → Expr α → Prop where
  | const {i j : Nat} {v : α} (hid : ρ i j) : Alike ρ (const i v) (const j v)
  | symbol {i j : Nat} {name name' : String} (hid : ρ i j) :
      Alike ρ (symbol i name) (symbol j name')
  | unary {i j : Nat} {op : UnaryOp} {a a' : Expr α} (hid : ρ i j) (ha : Alike ρ a a') :
      Alike ρ (unary i op a) (unary j op a')
  | binary {i j : Nat} {op : BinaryOp} {a a' b b' : Expr α} (hid : ρ i j) (ha : Alike ρ a a')
      (hb : Alike ρ b b') : Alike ρ (binary i op a b) (binary j op a' b')

namespace Alike

variable {e e' : Expr α}

theorem id (h : Alike ρ e e') : ρ e.id e'.id := by
  cases h <;> assumption

theorem isSymbol_eq (h : Alike ρ e e') : e.isSymbol = e'.isSymbol := by
  cases h <;> rfl

end Alike

/-- If every identity is related to one, every expression is like one. -/
theorem exists_alike (hρ : ∀ i, ∃ j, ρ i j) (e : Expr α) : ∃ e' : Expr α, e.Alike ρ e' := by
  induction e with
  | const i v =>
      obtain ⟨j, hj⟩ := hρ i
      exact ⟨const j v, .const hj⟩
  | symbol i name =>
      obtain ⟨j, hj⟩ := hρ i
      exact ⟨symbol j name, .symbol hj⟩
  | unary i op a iha =>
      obtain ⟨j, hj⟩ := hρ i
      obtain ⟨a', ha⟩ := iha
      exact ⟨unary j op a', .unary hj ha⟩
  | binary i op a b iha ihb =>
      obtain ⟨j, hj⟩ := hρ i
      obtain ⟨a', ha⟩ := iha
      obtain ⟨b', hb⟩ := ihb
      exact ⟨binary j op a' b', .binary hj ha hb⟩

end Expr

open ExplicitOde.Expr

/-! ## Traversals -/

/-- Two traversals that have met related identities and listed the same trees. -/
structure Progress.Alike (ρ : Nat → Nat → Prop) (p p' : Progress α) : Prop where
  entered : ∀ i j, ρ i j → p.entered.contains i = p'.entered.contains j
  listed : List.Forall₂ (Expr.Alike ρ) p.listed.toList p'.listed.toList

/-- A step of the traversals. -/
theorem Progress.Alike.visit (hρ : BiUnique ρ) {p p' : Progress α} (hp : p.Alike ρ p')
    {e e' : Expr α} (he : e.Alike ρ e') {below below' : Progress α → Progress α}
    (hbelow : ∀ {q q' : Progress α}, q.Alike ρ q' → (below q).Alike ρ (below' q')) :
    (p.visit e below).Alike ρ (p'.visit e' below') := by
  rw [Progress.visit, Progress.visit, hp.entered e.id e'.id he.id]
  split
  · exact hp
  · have hentered : Progress.Alike ρ (⟨p.entered.insert e.id, p.listed⟩ : Progress α)
        ⟨p'.entered.insert e'.id, p'.listed⟩ := by
      refine ⟨fun i j hij => ?_, hp.listed⟩
      rw [Std.HashSet.contains_insert, Std.HashSet.contains_insert, hp.entered i j hij,
        beq_eq_of_biUnique hρ he.id hij]
    have hafter := hbelow hentered
    refine ⟨hafter.entered, ?_⟩
    rw [Array.toList_push, Array.toList_push]
    exact List.rel_append hafter.listed (.cons he .nil)

theorem postorder_alike (hρ : BiUnique ρ) {e e' : Expr α} (he : e.Alike ρ e') :
    ∀ {p p' : Progress α}, p.Alike ρ p' → (e.postorder p).Alike ρ (e'.postorder p') := by
  induction he with
  | const hid => exact fun hp => hp.visit hρ (.const hid) fun hq => hq
  | symbol hid => exact fun hp => hp.visit hρ (.symbol hid) fun hq => hq
  | unary hid ha iha => exact fun hp => hp.visit hρ (.unary hid ha) iha
  | binary hid ha hb iha ihb =>
      exact fun hp => hp.visit hρ (.binary hid ha hb) fun hq => ihb (iha hq)

/-- **Roots that are alike have orders of evaluation that are alike.** -/
theorem evaluationOrder_alike (hρ : BiUnique ρ) {roots roots' : List (Expr α)}
    (h : List.Forall₂ (Expr.Alike ρ) roots roots') :
    List.Forall₂ (Expr.Alike ρ) (evaluationOrder roots) (evaluationOrder roots') := by
  have hall : ∀ {p p' : Progress α}, p.Alike ρ p' →
      (postorderAll p roots).Alike ρ (postorderAll p' roots') := by
    induction h with
    | nil => exact fun hp => hp
    | cons he _ ih => exact fun hp => ih (postorder_alike hρ he hp)
  have hstart : Progress.Alike ρ (⟨∅, #[]⟩ : Progress α) ⟨∅, #[]⟩ :=
    ⟨fun _ _ _ => by simp, .nil⟩
  rw [evaluationOrder_eq, evaluationOrder_eq]
  exact (hall hstart).listed

end ExplicitOde
