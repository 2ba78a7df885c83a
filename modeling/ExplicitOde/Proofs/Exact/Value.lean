import ExplicitOde.Expr.Value
import ExplicitOde.Proofs.Exact.Scalar

/-!
# Values of expressions in exact arithmetic

`Expr.real` is the value of an expression by the real functions, `Expr.Within` says that every
operation of the expression is regular, and `exactValue_eq_some_iff` puts the two together: an
expression evaluates to a number in exact arithmetic if it is defined and the number is its value.

What is expected of powers hangs on their exponents being the same everywhere, which is decided by
form: an expression is closed if there is no symbol in it.
-/

namespace ExplicitOde

variable {α : Type}

namespace Expr

/-- There are no symbols in the expression. -/
def isClosed : Expr α → Bool
  | const _ _ => true
  | symbol _ _ => false
  | unary _ _ a => a.isClosed
  | binary _ _ a b => a.isClosed && b.isClosed

variable [ExactScalar α]

/-- The value by the real functions, where symbols have the values of `σ` by identity. -/
noncomputable def real (σ : Nat → ℝ) (e : Expr α) : ℝ :=
  e.value Interpretation.total σ

@[simp] theorem real_const (σ : Nat → ℝ) (id : Nat) (v : α) :
    (const id v).real σ = ExactScalar.real v := rfl

@[simp] theorem real_symbol (σ : Nat → ℝ) (id : Nat) (name : String) :
    (symbol id name : Expr α).real σ = σ id := rfl

@[simp] theorem real_unary (σ : Nat → ℝ) (id : Nat) (op : UnaryOp) (a : Expr α) :
    (unary id op a).real σ = op.real (a.real σ) := rfl

@[simp] theorem real_binary (σ : Nat → ℝ) (id : Nat) (op : BinaryOp) (a b : Expr α) :
    (binary id op a b).real σ = op.real (a.real σ) (b.real σ) := rfl

/-- Every operation of the expression is regular where symbols have the values of `σ`. -/
def Within (r : Regularity) (σ : Nat → ℝ) : Expr α → Prop
  | const _ _ => True
  | symbol _ _ => True
  | unary _ op a => a.Within r σ ∧ op.Regular r (a.real σ)
  | binary _ op a b =>
    a.Within r σ ∧ b.Within r σ ∧ op.Regular r (b.isClosed = true) (a.real σ) (b.real σ)

/-- A smooth expression is regular in either sense. -/
theorem Within.of_smooth {σ : Nat → ℝ} (r : Regularity) {e : Expr α} (h : e.Within .smooth σ) :
    e.Within r σ := by
  induction e with
  | const => trivial
  | symbol => trivial
  | unary id op a iha => exact ⟨iha h.1, h.2.of_smooth r⟩
  | binary id op a b iha ihb => exact ⟨iha h.1, ihb h.2.1, h.2.2.of_smooth r⟩

theorem Within.operand {r : Regularity} {σ : Nat → ℝ} {e a : Expr α} (h : e.Within r σ)
    (ha : a ∈ e.operands) : a.Within r σ := by
  cases e with
  | const | symbol => simp [operands] at ha
  | unary =>
      rw [operands, List.mem_singleton] at ha
      exact ha ▸ h.1
  | binary =>
      simp only [operands, List.mem_cons, List.not_mem_nil, or_false] at ha
      rcases ha with rfl | rfl
      · exact h.1
      · exact h.2.1

/-- The value in exact arithmetic, absent where the expression is not defined. -/
noncomputable def exactValue (σ : Nat → ℝ) (e : Expr α) : Option ℝ :=
  e.value Interpretation.exact fun id => some (σ id)

open Classical in
/-- The value in exact arithmetic is the one by the real functions where there is one at all. -/
theorem exactValue_eq_ite (σ : Nat → ℝ) (e : Expr α) :
    e.exactValue σ = if e.Within .defined σ then some (e.real σ) else none := by
  induction e with
  | const => simp [exactValue, Within, value, Interpretation.exact]
  | symbol => simp [exactValue, Within, value]
  | unary id op a iha =>
      have hstep : (unary id op a).exactValue σ =
          (a.exactValue σ).bind fun v =>
            if op.Regular .defined v then some (op.real v) else none := rfl
      rw [hstep, iha]
      by_cases ha : a.Within .defined σ <;> simp [Within, ha]
  | binary id op a b iha ihb =>
      have hstep : (binary id op a b).exactValue σ =
          (a.exactValue σ).bind fun u => (b.exactValue σ).bind fun v =>
            if op.Regular .defined True u v then some (op.real u v) else none := rfl
      rw [hstep, iha, ihb]
      by_cases ha : a.Within .defined σ <;> by_cases hb : b.Within .defined σ <;>
        simp [Within, ha, hb, BinaryOp.regular_defined_congr op True (b.isClosed = true)]

/-- **An expression evaluates to a number if it is defined and the number is its value.** -/
theorem exactValue_eq_some_iff {σ : Nat → ℝ} {e : Expr α} {v : ℝ} :
    e.exactValue σ = some v ↔ e.Within .defined σ ∧ e.real σ = v := by
  classical
  rw [exactValue_eq_ite]
  simp

/-- Closed expressions have the same value everywhere. -/
theorem real_eq_of_isClosed {e : Expr α} (h : e.isClosed = true) (σ τ : Nat → ℝ) :
    e.real σ = e.real τ := by
  induction e with
  | const => rfl
  | symbol => simp [isClosed] at h
  | unary id op a iha => rw [real_unary, real_unary, iha h]
  | binary id op a b iha ihb =>
      simp only [isClosed, Bool.and_eq_true] at h
      rw [real_binary, real_binary, iha h.1, ihb h.2]

end Expr

end ExplicitOde
