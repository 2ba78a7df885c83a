import ExplicitOde.Proofs.Derivative.Rules
import ExplicitOde.Proofs.Expr.Symbols

/-!
# Second derivatives

A derivative that was built is an expression of its own, simplified and with shared nodes, and only
its value is known. Where that value is known in a neighbourhood, the derivative of the built
expression is known as well: it is the derivative of the value. So the rules need not be followed
through what was built.

Second derivatives by two symbols are the same in either order, which the rules themselves show:
none of them treats the two symbols differently.

The symbols of a derivative are symbols of the expression, and what is regular, and with which
value, depends on the symbols of an expression only.
-/

namespace ExplicitOde

namespace Expr

open Filter Topology

variable {α : Type} [ExactScalar α] {σ τ : Nat → ℝ}

/-! ## Symbols of derivatives -/

section Over

variable {P : Nat → Prop} {a b : Expr α}

@[simp] theorem over_zero : (0 : Expr α).Over P := trivial

@[simp] theorem over_one : (1 : Expr α).Over P := trivial

omit [ExactScalar α] in
@[simp] theorem over_unary {id : Nat} {op : UnaryOp} : (unary id op a).Over P ↔ a.Over P := Iff.rfl

omit [ExactScalar α] in
@[simp] theorem over_binary {id : Nat} {op : BinaryOp} :
    (binary id op a b).Over P ↔ a.Over P ∧ b.Over P := Iff.rfl

omit [ExactScalar α] in
@[simp] theorem over_neg : (-a).Over P ↔ a.Over P := Iff.rfl

omit [ExactScalar α] in
@[simp] theorem over_add : (a + b).Over P ↔ a.Over P ∧ b.Over P := Iff.rfl

omit [ExactScalar α] in
@[simp] theorem over_sub : (a - b).Over P ↔ a.Over P ∧ b.Over P := Iff.rfl

omit [ExactScalar α] in
@[simp] theorem over_mul : (a * b).Over P ↔ a.Over P ∧ b.Over P := Iff.rfl

omit [ExactScalar α] in
@[simp] theorem over_div : (a / b).Over P ↔ a.Over P ∧ b.Over P := Iff.rfl

/-- A derivative is over the symbols of the expression. -/
theorem Over.diff {e : Expr α} (h : e.Over P) (s : Nat) : (e.diff s).Over P := by
  induction e with
  | const => exact over_zero
  | symbol id name =>
      rw [Expr.diff]
      split
      · exact over_one
      · exact over_zero
  | unary id op a iha =>
      have ha : a.Over P := h
      have hda := iha ha
      rw [Expr.diff]
      cases op <;> simp [diffUnary, ha, hda]
  | binary id op a b iha ihb =>
      obtain ⟨ha, hb⟩ : a.Over P ∧ b.Over P := h
      have hda := iha ha
      have hdb := ihb hb
      rw [Expr.diff]
      cases op
      case pow =>
        rw [diffBinary]
        split <;> simp [ha, hb, hda, hdb]
      all_goals simp [diffBinary, ha, hb, hda, hdb]

end Over

theorem real_congr {e : Expr α} (h : e.Over fun i => σ i = τ i) : e.real σ = e.real τ :=
  value_congr h

/-- Whether an expression is regular depends on its symbols only. -/
theorem within_congr {r : Regularity} {e : Expr α} (h : e.Over fun i => σ i = τ i) :
    e.Within r σ ↔ e.Within r τ := by
  induction e with
  | const | symbol => exact Iff.rfl
  | unary id op a iha =>
      have hreal : a.real σ = a.real τ := real_congr h
      rw [Within, Within, iha h, hreal]
  | binary id op a b iha ihb =>
      rw [Within, Within, iha h.1, ihb h.2, real_congr h.1, real_congr h.2]

/-! ## The order of derivatives -/

omit [ExactScalar α] in
theorem isClosed_sub_one [Scalar α] (b : Expr α) : (b - 1).isClosed = b.isClosed := Bool.and_true _

/-- The rules for one operand, applied twice, do not depend on the order. -/
theorem real_diffUnary_comm {op : UnaryOp} {a : Expr α} {s t : Nat}
    (ha : ((a.diff s).diff t).real σ = ((a.diff t).diff s).real σ) :
    ((diffUnary op a (a.diff s)).diff t).real σ = ((diffUnary op a (a.diff t)).diff s).real σ := by
  cases op <;> simp only [diffUnary, diff_neg, diff_add, diff_sub, diff_mul, diff_div, diff_one,
    diff_unary, real_add, real_sub, real_mul, real_div, real_neg, real_one, real_zero, real_unary,
    UnaryOp.real, ha]
  all_goals ring

/-- The rules for two operands, applied twice, do not depend on the order. -/
theorem real_diffBinary_comm {op : BinaryOp} {a b : Expr α} {s t : Nat}
    (ha : ((a.diff s).diff t).real σ = ((a.diff t).diff s).real σ)
    (hb : ((b.diff s).diff t).real σ = ((b.diff t).diff s).real σ) :
    ((diffBinary op a b (a.diff s) (b.diff s)).diff t).real σ =
      ((diffBinary op a b (a.diff t) (b.diff t)).diff s).real σ := by
  cases op with
  | add => simp only [diffBinary, diff_add, real_add, ha, hb]
  | sub => simp only [diffBinary, diff_sub, real_sub, ha, hb]
  | mul =>
      simp only [diffBinary, diff_mul, diff_add, real_add, real_mul, ha, hb]
      ring
  | div =>
      simp only [diffBinary, diff_div, diff_mul, diff_sub, real_add, real_mul, real_sub, real_div,
        ha, hb]
      ring
  | pow =>
      -- which rule an exponent has is decided by whether it is closed, and so it is once more for
      -- the exponent less one in the first derivative
      by_cases hclosed : b.isClosed = true
      · have hs := real_diff_of_isClosed (σ := σ) hclosed s
        have ht := real_diff_of_isClosed (σ := σ) hclosed t
        simp only [diffBinary, diff_binary, isClosed_sub_one, hclosed, if_true, diff_mul, diff_sub,
          diff_one, real_add, real_mul, real_sub, real_one, real_binary, BinaryOp.real, ha, hs, ht]
        ring
      · simp only [diffBinary, diff_binary, diff_unary, diffUnary, if_neg hclosed, diff_mul,
          diff_add, diff_div, real_add, real_mul, real_sub, real_div, real_binary, real_unary,
          BinaryOp.real, UnaryOp.real, ha, hb]
        ring

/-- **Second derivatives do not depend on the order in which they are taken.** -/
theorem real_diff_comm (e : Expr α) (s t : Nat) :
    ((e.diff s).diff t).real σ = ((e.diff t).diff s).real σ := by
  induction e with
  | const => rfl
  | symbol id name =>
      have hzero : ∀ s t, (((symbol id name : Expr α).diff s).diff t).real σ = 0 := by
        intro s t
        rw [diff]
        split <;> exact real_zero
      rw [hzero, hzero]
  | unary id op a iha => exact real_diffUnary_comm iha
  | binary id op a b iha ihb => exact real_diffBinary_comm iha ihb

/-! ## Derivatives of built derivatives -/

/-- **What has a weighted sum of derivatives as its value has the weighted sum of the second
derivatives as its derivative.** The weights may be symbols, but not the one that is derived by. -/
theorem real_diff_of_real_eq {ι : Type} [Fintype ι] {f : ι → Expr α} {g : Expr α}
    {w : (Nat → ℝ) → ι → ℝ} {a b : Nat} (hf : ∀ l, (f l).Within .smooth σ)
    (hg : g.Within .smooth σ)
    (hvalue : ∀ τ, (∀ l, (f l).Within .smooth τ) →
      g.real τ = ∑ l, ((f l).diff a).real τ * w τ l)
    (hw : ∀ t, w (Function.update σ b t) = w σ) :
    (g.diff b).real σ = ∑ l, (((f l).diff a).diff b).real σ * w σ l := by
  have hbuilt := hasDerivAt_real hg b
  have hsum : HasDerivAt
      (fun t => ∑ l, ((f l).diff a).real (Function.update σ b t) * w σ l)
      (∑ l, (((f l).diff a).diff b).real σ * w σ l) (σ b) :=
    HasDerivAt.fun_sum fun l _ => (hasDerivAt_real ((hf l).diff a) b).mul_const (w σ l)
  have hnear : ∀ᶠ t in 𝓝 (σ b), g.real (Function.update σ b t) =
      ∑ l, ((f l).diff a).real (Function.update σ b t) * w σ l := by
    filter_upwards [eventually_all.mpr fun l => eventually_within (hf l) b] with t ht
    rw [hvalue _ ht, hw t]
  exact hbuilt.unique (hsum.congr_of_eventuallyEq hnear)

end Expr

end ExplicitOde
