import ExplicitOde.Proofs.Computation
import ExplicitOde.Proofs.Expr.Simplify
import ExplicitOde.Proofs.Expr.Symbols

/-!
# Building makes no symbols

Whatever is built from expressions over some symbols is over these symbols again, be it a node of
its own, a folded constant or one of the operands. Only `Expr.mkSymbol` makes symbols.
-/

namespace ExplicitOde

namespace Expr

variable {α : Type} [Scalar α] {P : Nat → Prop} {a b : Expr α}

omit [Scalar α] in
/-- What is over no symbols is closed. -/
theorem isClosed_iff_over : a.isClosed = true ↔ a.Over fun _ => False := by
  induction a with
  | const => exact ⟨fun _ => trivial, fun _ => rfl⟩
  | symbol => exact ⟨fun h => Bool.noConfusion h, fun h => h.elim⟩
  | unary id op a iha => exact iha
  | binary id op a b iha ihb =>
      rw [isClosed, Bool.and_eq_true, iha, ihb]
      rfl

omit [Scalar α] in
theorem Over.operand {e : Expr α} (h : e.Over P) (ha : a ∈ e.operands) : a.Over P := by
  cases e with
  | const | symbol => exact absurd ha List.not_mem_nil
  | unary =>
      rw [operands, List.mem_singleton] at ha
      exact ha ▸ h
  | binary =>
      simp only [operands, List.mem_cons, List.not_mem_nil, or_false] at ha
      rcases ha with rfl | rfl
      · exact h.1
      · exact h.2

omit [Scalar α] in
theorem over_mkConst (P : Nat → Prop) (v : α) : Always (mkConst v) (Over P) := fun _ => trivial

theorem over_mkZero (P : Nat → Prop) : Always (mkZero : Build (Expr α)) (Over P) :=
  over_mkConst P _

theorem over_mkOne (P : Nat → Prop) : Always (mkOne : Build (Expr α)) (Over P) :=
  over_mkConst P _

theorem over_mkUnary (op : UnaryOp) (ha : a.Over P) : Always (mkUnary op a) (Over P) := by
  rw [mkUnary]
  cases hs : unaryShortcut? op a with
  | none => exact fun _ => ha
  | some s =>
      rcases unaryShortcut?_cases hs with ⟨_, _, _, rfl, _, rfl⟩ | ⟨_, _, _, rfl, rfl⟩
      · exact over_mkConst P _
      · exact Always.pure ha

theorem over_mkNeg (ha : a.Over P) : Always (mkNeg a) (Over P) := over_mkUnary .neg ha

theorem over_mkBinary (op : BinaryOp) (ha : a.Over P) (hb : b.Over P) :
    Always (mkBinary op a b) (Over P) := by
  have hold : ∀ e, e = a ∨ e = b → e.Over P := by
    rintro e (rfl | rfl)
    · exact ha
    · exact hb
  rw [mkBinary]
  cases hs : binaryShortcut? op a b with
  | none => exact fun _ => ⟨ha, hb⟩
  | some s =>
      have hamong := binaryShortcut?_among hs
      cases s with
      | constant v => exact over_mkConst P v
      | existing e => exact Always.pure (hold e hamong)
      | negated e => exact over_mkNeg (hold e hamong)

theorem over_mkAdd (ha : a.Over P) (hb : b.Over P) : Always (mkAdd a b) (Over P) :=
  over_mkBinary .add ha hb

theorem over_mkSub (ha : a.Over P) (hb : b.Over P) : Always (mkSub a b) (Over P) :=
  over_mkBinary .sub ha hb

theorem over_mkMul (ha : a.Over P) (hb : b.Over P) : Always (mkMul a b) (Over P) :=
  over_mkBinary .mul ha hb

theorem over_mkDiv (ha : a.Over P) (hb : b.Over P) : Always (mkDiv a b) (Over P) :=
  over_mkBinary .div ha hb

end Expr

end ExplicitOde
