import ExplicitOde.Derivative.Partial
import ExplicitOde.Proofs.Expr.Alike
import ExplicitOde.Proofs.Lockstep
import Mathlib.Tactic.SplitIfs
import Mathlib.Data.Option.Basic

/-!
# Building alike

Which node an operation makes, or which one it passes on, depends on constants and on whether two
operands are one node. So **operations on operands that are alike make results that are alike**, in
two runs in step; the same holds of partial derivatives.
-/

namespace ExplicitOde

open Relator (BiUnique)
namespace Expr

variable {α : Type} {ρ : Nat → Nat → Prop} {a a' b b' : Expr α}

theorem Alike.constant?_eq (h : a.Alike ρ a') : a.constant? = a'.constant? := by
  cases h <;> rfl

/-! ## New nodes -/

theorem inStep_freshId : InStep ρ freshId freshId ρ :=
  fun _ _ hn => ⟨hn.head, hn.tail⟩

theorem inStep_mkConst (v : α) : InStep ρ (mkConst v) (mkConst v) (Alike ρ) :=
  inStep_freshId.bind fun _ _ hid => .pure (.const hid)

/-- New symbols are alike whatever their names. -/
theorem inStep_mkSymbol (name name' : String) :
    InStep ρ (mkSymbol name : Build (Expr α)) (mkSymbol name') (Alike ρ) :=
  inStep_freshId.bind fun _ _ hid => .pure (.symbol hid)

theorem inStep_newUnary (op : UnaryOp) (ha : a.Alike ρ a') :
    InStep ρ (do return unary (← freshId) op a) (do return unary (← freshId) op a') (Alike ρ) :=
  inStep_freshId.bind fun _ _ hid => .pure (.unary hid ha)

theorem inStep_newBinary (op : BinaryOp) (ha : a.Alike ρ a')
    (hb : b.Alike ρ b') :
    InStep ρ (do return binary (← freshId) op a b) (do return binary (← freshId) op a' b')
      (Alike ρ) :=
  inStep_freshId.bind fun _ _ hid => .pure (.binary hid ha hb)

/-! ## Results that need no node -/

/-- The same constant, or the same made of expressions that are alike. -/
inductive ShortcutAlike (ρ : Nat → Nat → Prop) : Shortcut α → Shortcut α → Prop where
  | constant (v : α) : ShortcutAlike ρ (.constant v) (.constant v)
  | existing {e e' : Expr α} (h : e.Alike ρ e') : ShortcutAlike ρ (.existing e) (.existing e')
  | negated {e e' : Expr α} (h : e.Alike ρ e') : ShortcutAlike ρ (.negated e) (.negated e')

variable [Scalar α]

theorem Alike.isConstant_eq (h : a.Alike ρ a') : a.isConstant = a'.isConstant := by
  funext v
  rw [isConstant, isConstant, h.constant?_eq]

theorem Alike.isZero_eq (h : a.Alike ρ a') : a.isZero = a'.isZero := by
  rw [isZero, isZero, h.isConstant_eq]

/-- Equal constants are the same on both sides, and so is one node. -/
theorem Alike.isSame_eq (hρ : BiUnique ρ) (ha : a.Alike ρ a') (hb : b.Alike ρ b') :
    a.isSame b = a'.isSame b' := by
  have hid := beq_eq_of_biUnique hρ ha.id hb.id
  unfold isSame
  rw [hid]
  cases ha <;> cases hb <;> rfl

theorem unaryShortcut?_alike (op : UnaryOp) (ha : a.Alike ρ a') :
    Option.Rel (ShortcutAlike ρ) (unaryShortcut? op a) (unaryShortcut? op a') := by
  unfold unaryShortcut?
  rw [ha.constant?_eq]
  cases a'.constant?.bind (Scalar.foldUnary? op) with
  | some v => exact .some (.constant v)
  | none =>
      cases ha with
      | const | symbol | binary => cases op <;> exact .none
      | @unary i j inner e e' hid he =>
          cases op with
          | neg =>
              cases inner with
              | neg => exact .some (.existing he)
              | _ => exact .none
          | _ => exact .none

theorem neutralShortcut?_alike (hρ : BiUnique ρ) (op : BinaryOp) (ha : a.Alike ρ a')
    (hb : b.Alike ρ b') :
    Option.Rel (ShortcutAlike ρ) (neutralShortcut? op a b) (neutralShortcut? op a' b') := by
  have hsame := Bool.eq_iff_iff.mp (ha.isSame_eq hρ hb)
  -- being a certain constant is the same on both sides
  have hleft : ∀ v, a.isConstant v = true ↔ a'.isConstant v = true := fun v => by
    rw [ha.isConstant_eq]
  have hright : ∀ v, b.isConstant v = true ↔ b'.isConstant v = true := fun v => by
    rw [hb.isConstant_eq]
  have hone : Option.Rel (ShortcutAlike ρ) (some (.existing a)) (some (.existing a')) :=
    .some (.existing ha)
  have hother : Option.Rel (ShortcutAlike ρ) (some (.existing b)) (some (.existing b')) :=
    .some (.existing hb)
  have hconstant : ∀ v : α,
      Option.Rel (ShortcutAlike ρ) (some (.constant v)) (some (.constant v)) :=
    fun v => .some (.constant v)
  cases op with
  | add => exact rel_ite (hleft _) hother (rel_ite (hright _) hone .none)
  | sub =>
      refine rel_ite (hright _) hone (rel_ite (hleft _) (.some (.negated hb)) ?_)
      exact rel_ite hsame (hconstant _) .none
  | mul =>
      refine rel_ite ?_ (hconstant _) ?_
      · rw [ha.isZero_eq, hb.isZero_eq]
      · refine rel_ite (hleft _) hother (rel_ite (hright _) hone ?_)
        refine rel_ite (hleft _) (.some (.negated hb)) ?_
        exact rel_ite (hright _) (.some (.negated ha)) .none
  | div => exact rel_ite (hleft _) (hconstant _) (rel_ite (hright _) hone .none)
  | pow => exact rel_ite (hright _) (hconstant _) (rel_ite (hright _) hone .none)

theorem binaryShortcut?_alike (hρ : BiUnique ρ) (op : BinaryOp) (ha : a.Alike ρ a')
    (hb : b.Alike ρ b') :
    Option.Rel (ShortcutAlike ρ) (binaryShortcut? op a b) (binaryShortcut? op a' b') := by
  have hconstants : constants? a b = constants? a' b' := by
    unfold constants?
    rw [ha.constant?_eq, hb.constant?_eq]
  unfold binaryShortcut?
  rw [hconstants]
  split
  · exact .some (.constant _)
  · exact neutralShortcut?_alike hρ op ha hb

/-! ## Operations -/

theorem inStep_mkZero :
    InStep ρ (mkZero : Build (Expr α)) mkZero (Alike ρ) := inStep_mkConst _

theorem inStep_mkOne :
    InStep ρ (mkOne : Build (Expr α)) mkOne (Alike ρ) := inStep_mkConst _

theorem inStep_mkUnary (op : UnaryOp) (ha : a.Alike ρ a') :
    InStep ρ (mkUnary op a) (mkUnary op a') (Alike ρ) := by
  have hshort := unaryShortcut?_alike op ha
  rw [mkUnary, mkUnary]
  generalize unaryShortcut? op a = s at hshort
  generalize unaryShortcut? op a' = s' at hshort
  cases hshort with
  | none => exact inStep_newUnary op ha
  | some h =>
      cases h with
      | constant v => exact inStep_mkConst v
      | existing h => exact .pure h
      | negated h => exact inStep_newUnary .neg h

theorem inStep_mkNeg (ha : a.Alike ρ a') :
    InStep ρ (mkNeg a) (mkNeg a') (Alike ρ) := inStep_mkUnary .neg ha

theorem inStep_mkBinary (hρ : BiUnique ρ) (op : BinaryOp) (ha : a.Alike ρ a')
    (hb : b.Alike ρ b') : InStep ρ (mkBinary op a b) (mkBinary op a' b') (Alike ρ) := by
  have hshort := binaryShortcut?_alike hρ op ha hb
  rw [mkBinary, mkBinary]
  generalize binaryShortcut? op a b = s at hshort
  generalize binaryShortcut? op a' b' = s' at hshort
  cases hshort with
  | none => exact inStep_newBinary op ha hb
  | some h =>
      cases h with
      | constant v => exact inStep_mkConst v
      | existing h => exact .pure h
      | negated h => exact inStep_mkNeg h

theorem inStep_mkAdd (hρ : BiUnique ρ) (ha : a.Alike ρ a') (hb : b.Alike ρ b') :
    InStep ρ (mkAdd a b) (mkAdd a' b') (Alike ρ) := inStep_mkBinary hρ .add ha hb

theorem inStep_mkSub (hρ : BiUnique ρ) (ha : a.Alike ρ a') (hb : b.Alike ρ b') :
    InStep ρ (mkSub a b) (mkSub a' b') (Alike ρ) := inStep_mkBinary hρ .sub ha hb

theorem inStep_mkMul (hρ : BiUnique ρ) (ha : a.Alike ρ a') (hb : b.Alike ρ b') :
    InStep ρ (mkMul a b) (mkMul a' b') (Alike ρ) := inStep_mkBinary hρ .mul ha hb

theorem inStep_mkDiv (hρ : BiUnique ρ) (ha : a.Alike ρ a') (hb : b.Alike ρ b') :
    InStep ρ (mkDiv a b) (mkDiv a' b') (Alike ρ) := inStep_mkBinary hρ .div ha hb

/-! ## Partial derivatives -/

theorem inStep_arcPartial (hρ : BiUnique ρ) (ha : a.Alike ρ a') :
    InStep ρ (arcPartial a) (arcPartial a') (Alike ρ) := by
  rw [arcPartial, arcPartial]
  refine (inStep_mkMul hρ ha ha).bind fun square square' hsquare => ?_
  refine inStep_mkOne.bind fun one one' hone => ?_
  refine (inStep_mkSub hρ hone hsquare).bind fun rest rest' hrest => ?_
  refine (inStep_mkUnary .sqrt hrest).bind fun root root' hroot => ?_
  exact inStep_mkOne.bind fun one one' hone => inStep_mkDiv hρ hone hroot

theorem inStep_unaryPartial (hρ : BiUnique ρ) (op : UnaryOp) {node node' : Expr α}
    (hnode : node.Alike ρ node') (ha : a.Alike ρ a') :
    InStep ρ (unaryPartial op node a) (unaryPartial op node' a') (Alike ρ) := by
  cases op with
  | neg => exact inStep_mkConst _
  | sin => exact inStep_mkUnary .cos ha
  | cos => exact (inStep_mkUnary .sin ha).bind fun s s' hs => inStep_mkNeg hs
  | tan =>
      refine (inStep_mkUnary .cos ha).bind fun c c' hc => ?_
      refine inStep_mkOne.bind fun one one' hone => ?_
      exact (inStep_mkMul hρ hc hc).bind fun d d' hd => inStep_mkDiv hρ hone hd
  | asin => exact inStep_arcPartial hρ ha
  | acos => exact (inStep_arcPartial hρ ha).bind fun d d' hd => inStep_mkNeg hd
  | atan =>
      refine inStep_mkOne.bind fun one one' hone => ?_
      refine inStep_mkOne.bind fun other other' hother => ?_
      refine (inStep_mkMul hρ ha ha).bind fun square square' hsquare => ?_
      exact (inStep_mkAdd hρ hother hsquare).bind fun d d' hd => inStep_mkDiv hρ hone hd
  | sinh => exact inStep_mkUnary .cosh ha
  | cosh => exact inStep_mkUnary .sinh ha
  | tanh =>
      refine inStep_mkOne.bind fun one one' hone => ?_
      exact (inStep_mkMul hρ hnode hnode).bind fun d d' hd => inStep_mkSub hρ hone hd
  | exp => exact .pure hnode
  | log => exact inStep_mkOne.bind fun one one' hone => inStep_mkDiv hρ hone ha
  | sqrt => exact (inStep_mkConst _).bind fun half half' h => inStep_mkDiv hρ h hnode

theorem inStep_leftPartial (hρ : BiUnique ρ) (op : BinaryOp) (ha : a.Alike ρ a')
    (hb : b.Alike ρ b') : InStep ρ (leftPartial op a b) (leftPartial op a' b') (Alike ρ) := by
  cases op with
  | add => exact inStep_mkOne
  | sub => exact inStep_mkOne
  | mul => exact .pure hb
  | div => exact inStep_mkOne.bind fun one one' hone => inStep_mkDiv hρ hone hb
  | pow =>
      refine inStep_mkOne.bind fun one one' hone => ?_
      refine (inStep_mkSub hρ hb hone).bind fun less less' hless => ?_
      exact (inStep_mkBinary hρ .pow ha hless).bind fun d d' hd => inStep_mkMul hρ hb hd

theorem inStep_rightPartial (hρ : BiUnique ρ) (op : BinaryOp) {node node' : Expr α}
    (hnode : node.Alike ρ node') (ha : a.Alike ρ a') (hb : b.Alike ρ b') :
    InStep ρ (rightPartial op node a b) (rightPartial op node' a' b') (Alike ρ) := by
  cases op with
  | add => exact inStep_mkOne
  | sub => exact inStep_mkConst _
  | mul => exact .pure ha
  | div => exact (inStep_mkDiv hρ hnode hb).bind fun d d' hd => inStep_mkNeg hd
  | pow => exact (inStep_mkUnary .log ha).bind fun l l' hl => inStep_mkMul hρ hnode hl

/-- An operand, and a derivative by it, on both sides. -/
structure OperandAlike (ρ : Nat → Nat → Prop) (p p' : Expr α × Build (Expr α)) : Prop where
  operand : p.1.Alike ρ p'.1
  derivative : InStep ρ p.2 p'.2 (Alike ρ)

theorem partials_alike (hρ : BiUnique ρ) (h : a.Alike ρ a') :
    List.Forall₂ (OperandAlike ρ) a.partials a'.partials := by
  cases h with
  | const | symbol => exact .nil
  | unary hid ha => exact .cons ⟨ha, inStep_unaryPartial hρ _ (.unary hid ha) ha⟩ .nil
  | binary hid ha hb =>
      refine .cons ⟨ha, inStep_leftPartial hρ _ ha hb⟩ (.cons ⟨hb, ?_⟩ .nil)
      exact inStep_rightPartial hρ _ (.binary hid ha hb) ha hb

end Expr

end ExplicitOde
