import ExplicitOde.Proofs.Derivative.Rules

/-!
# Derivatives in a direction

A direction gives every symbol a rate. The rate of an expression follows by the chain rule from
the rates of its symbols, and `directional_eq_sum` says that it is linear in them: the coefficient
of a symbol is the derivative by it.
-/

namespace ExplicitOde

namespace Expr

variable {α : Type} [ExactScalar α] {σ v : Nat → ℝ}

/-- The rate of an expression at `σ` where symbols have the rates of `v`. -/
noncomputable def directional (σ v : Nat → ℝ) : Expr α → ℝ
  | const _ _ => 0
  | symbol id _ => v id
  | unary _ op a => op.slope (a.real σ) * a.directional σ v
  | binary _ op a b =>
    op.slopeLeft (a.real σ) (b.real σ) * a.directional σ v +
      op.slopeRight (a.real σ) (b.real σ) * b.directional σ v

/-- The direction in which some symbols change, at given rates. -/
noncomputable def rates {ι : Type} [Fintype ι] (symbols : ι → Nat) (v : ι → ℝ) : Nat → ℝ :=
  fun id => ∑ i, if id = symbols i then v i else 0

/-- **The rate of an expression is the sum of its derivatives times the rates of the symbols.** -/
theorem directional_eq_sum {ι : Type} [Fintype ι] {e : Expr α} (h : e.Within .smooth σ)
    (symbols : ι → Nat) (v : ι → ℝ) :
    e.directional σ (rates symbols v) = ∑ i, (e.diff (symbols i)).real σ * v i := by
  induction e with
  | const => simp [directional, diff]
  | symbol id name =>
      rw [directional, rates]
      refine Finset.sum_congr rfl fun i _ => ?_
      by_cases hid : id = symbols i <;> simp [diff, hid]
  | unary id op a iha =>
      rw [directional, iha h.1, Finset.mul_sum]
      refine Finset.sum_congr rfl fun i _ => ?_
      rw [diff, real_diffUnary]
      ring
  | binary id op a b iha ihb =>
      rw [directional, iha h.1, ihb h.2.1, Finset.mul_sum, Finset.mul_sum,
        ← Finset.sum_add_distrib]
      refine Finset.sum_congr rfl fun i _ => ?_
      rw [real_diff_binary (symbols i) h]
      ring

/-- In the direction of one symbol the rate is the derivative by it. -/
theorem directional_single {e : Expr α} (h : e.Within .smooth σ) (s : Nat) :
    e.directional σ (Pi.single s 1) = (e.diff s).real σ := by
  have hrates : (Pi.single s 1 : Nat → ℝ) = rates (fun _ : Unit => s) fun _ => 1 := by
    funext id
    simp [rates, Pi.single_apply]
  rw [hrates, directional_eq_sum h]
  simp

end Expr

end ExplicitOde
