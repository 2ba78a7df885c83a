import ExplicitOde.Proofs.Exact.Value
import Mathlib

/-!
# The rules of calculus

`Expr.diff` is the derivative of an expression by a symbol as it is done on paper: one rule for each
operation, a tree for a tree, nothing simplified and nothing shared. It is what derivatives that
are built are compared with. The node identities of these trees carry no meaning.

Three facts make it a derivative.

* **Truth.** Where the expression is smooth, the value of its derivative is the derivative of its
  value: `hasDerivAt_real`.
* **Closure.** The derivative of a smooth expression is smooth, so it can be taken again:
  `Within.diff`.
* **Openness.** An expression that is smooth at a point is smooth around it: `eventually_within`.
-/

namespace ExplicitOde

open Filter Topology

/-! ## Slopes of operations -/

namespace UnaryOp

/-- The derivative of a function at a number. -/
noncomputable def slope : UnaryOp → ℝ → ℝ
  | neg, _ => -1
  | sin, v => Real.cos v
  | cos, v => -Real.sin v
  | tan, v => 1 / (Real.cos v * Real.cos v)
  | asin, v => 1 / Real.sqrt (1 - v * v)
  | acos, v => -(1 / Real.sqrt (1 - v * v))
  | atan, v => 1 / (1 + v * v)
  | sinh, v => Real.cosh v
  | cosh, v => Real.sinh v
  | tanh, v => 1 - Real.tanh v * Real.tanh v
  | exp, v => Real.exp v
  | log, v => 1 / v
  | sqrt, v => 1 / ((1 + 1) * Real.sqrt v)

theorem one_sub_tanh_sq (v : ℝ) :
    1 - Real.tanh v * Real.tanh v = 1 / (Real.cosh v * Real.cosh v) := by
  have hc : Real.cosh v ≠ 0 := (Real.cosh_pos v).ne'
  rw [Real.tanh_eq_sinh_div_cosh]
  field_simp
  linarith [Real.cosh_sq v]

/-- **A function has its slope as derivative where it is smooth.** -/
theorem hasDerivAt_real {op : UnaryOp} {v : ℝ} (h : op.Regular .smooth v) :
    HasDerivAt op.real (op.slope v) v := by
  cases op with
  | neg => exact hasDerivAt_neg v
  | sin => exact Real.hasDerivAt_sin v
  | cos => exact Real.hasDerivAt_cos v
  | tan => exact (Real.hasDerivAt_tan h).congr_deriv (by rw [slope, sq])
  | asin =>
      have hd := Real.hasDerivAt_arcsin (ne_of_gt h.1) (ne_of_lt h.2)
      exact hd.congr_deriv (by rw [slope, sq])
  | acos =>
      have hd := Real.hasDerivAt_arccos (ne_of_gt h.1) (ne_of_lt h.2)
      exact hd.congr_deriv (by rw [slope, sq])
  | atan => exact (Real.hasDerivAt_arctan v).congr_deriv (by rw [slope, sq])
  | sinh => exact Real.hasDerivAt_sinh v
  | cosh => exact Real.hasDerivAt_cosh v
  | tanh =>
      have hc : Real.cosh v ≠ 0 := (Real.cosh_pos v).ne'
      have hd := (Real.hasDerivAt_sinh v).div (Real.hasDerivAt_cosh v) hc
      have hfun : (UnaryOp.tanh).real = fun x => Real.sinh x / Real.cosh x := by
        funext x
        exact Real.tanh_eq_sinh_div_cosh x
      rw [hfun]
      refine hd.congr_deriv ?_
      rw [slope, one_sub_tanh_sq]
      field_simp
      linarith [Real.cosh_sq v]
  | exp => exact Real.hasDerivAt_exp v
  | log => exact (Real.hasDerivAt_log (ne_of_gt h)).congr_deriv (by rw [slope, one_div])
  | sqrt =>
      have hd := Real.hasDerivAt_sqrt (ne_of_gt h)
      exact hd.congr_deriv (by rw [slope, one_add_one_eq_two])

/-- Around a smooth point all points are smooth. -/
theorem eventually_regular {op : UnaryOp} {f : ℝ → ℝ} {t : ℝ} (h : op.Regular .smooth (f t))
    (hf : ContinuousAt f t) : ∀ᶠ x in 𝓝 t, op.Regular .smooth (f x) := by
  cases op with
  | tan => exact (Real.continuous_cos.continuousAt.comp hf).eventually_ne h
  | asin => exact (hf.eventually_const_lt h.1).and (hf.eventually_lt_const h.2)
  | acos => exact (hf.eventually_const_lt h.1).and (hf.eventually_lt_const h.2)
  | log => exact hf.eventually_const_lt h
  | sqrt => exact hf.eventually_const_lt h
  | _ => exact Eventually.of_forall fun _ => trivial

end UnaryOp

namespace BinaryOp

/-- The derivative of an operation by its left operand. -/
noncomputable def slopeLeft : BinaryOp → ℝ → ℝ → ℝ
  | add, _, _ => 1
  | sub, _, _ => 1
  | mul, _, v => v
  | div, _, v => 1 / v
  | pow, u, v => v * u ^ (v - 1)

/-- The derivative of an operation by its right operand. -/
noncomputable def slopeRight : BinaryOp → ℝ → ℝ → ℝ
  | add, _, _ => 1
  | sub, _, _ => -1
  | mul, u, _ => u
  | div, u, v => -(u / v / v)
  | pow, u, v => u ^ v * Real.log u

end BinaryOp

namespace Expr

variable {α : Type}

/-! ## Derivatives on paper -/

/-- Trees are combined as on paper, without any simplification. -/
scoped instance : Add (Expr α) := ⟨binary 0 .add⟩

scoped instance : Sub (Expr α) := ⟨binary 0 .sub⟩

scoped instance : Mul (Expr α) := ⟨binary 0 .mul⟩

scoped instance : Div (Expr α) := ⟨binary 0 .div⟩

scoped instance : Neg (Expr α) := ⟨unary 0 .neg⟩

section

variable [Scalar α]

scoped instance : Zero (Expr α) := ⟨const 0 Scalar.zero⟩

scoped instance : One (Expr α) := ⟨const 0 Scalar.one⟩

/-- The derivative of a function of `a`, where `da` is that of `a`. -/
def diffUnary (op : UnaryOp) (a da : Expr α) : Expr α :=
  match op with
  | .neg => -da
  | .sin => unary 0 .cos a * da
  | .cos => -(unary 0 .sin a * da)
  | .tan => da / (unary 0 .cos a * unary 0 .cos a)
  | .asin => da / unary 0 .sqrt (1 - a * a)
  | .acos => -(da / unary 0 .sqrt (1 - a * a))
  | .atan => da / (1 + a * a)
  | .sinh => unary 0 .cosh a * da
  | .cosh => unary 0 .sinh a * da
  | .tanh => da / (unary 0 .cosh a * unary 0 .cosh a)
  | .exp => unary 0 .exp a * da
  | .log => da / a
  | .sqrt => da / ((1 + 1) * unary 0 .sqrt a)

/-- The derivative of a combination of `a` and `b`, where `da` and `db` are theirs. Powers have two
rules, one for exponents that are the same everywhere and one for all others. -/
def diffBinary (op : BinaryOp) (a b da db : Expr α) : Expr α :=
  match op with
  | .add => da + db
  | .sub => da - db
  | .mul => da * b + a * db
  | .div => (da * b - a * db) / (b * b)
  | .pow =>
    if b.isClosed then b * binary 0 .pow a (b - 1) * da
    else binary 0 .pow a b * (db * unary 0 .log a + b * (da / a))

/-- The derivative by a symbol. -/
def diff (s : Nat) : Expr α → Expr α
  | const _ _ => 0
  | symbol id _ => if id = s then 1 else 0
  | unary _ op a => diffUnary op a (a.diff s)
  | binary _ op a b => diffBinary op a b (a.diff s) (b.diff s)

section

variable (a b : Expr α) (s : Nat)

@[simp] theorem diff_one : (1 : Expr α).diff s = 0 := rfl

@[simp] theorem diff_unary (id : Nat) (op : UnaryOp) :
    (unary id op a).diff s = diffUnary op a (a.diff s) := rfl

@[simp] theorem diff_binary (id : Nat) (op : BinaryOp) :
    (binary id op a b).diff s = diffBinary op a b (a.diff s) (b.diff s) := rfl

@[simp] theorem diff_neg : (-a).diff s = -a.diff s := rfl

@[simp] theorem diff_add : (a + b).diff s = a.diff s + b.diff s := rfl

@[simp] theorem diff_sub : (a - b).diff s = a.diff s - b.diff s := rfl

@[simp] theorem diff_mul : (a * b).diff s = a.diff s * b + a * b.diff s := rfl

@[simp] theorem diff_div : (a / b).diff s = (a.diff s * b - a * b.diff s) / (b * b) := rfl

end

end

variable [ExactScalar α] {σ : Nat → ℝ}

@[simp] theorem real_add (a b : Expr α) : (a + b).real σ = a.real σ + b.real σ := rfl

@[simp] theorem real_sub (a b : Expr α) : (a - b).real σ = a.real σ - b.real σ := rfl

@[simp] theorem real_mul (a b : Expr α) : (a * b).real σ = a.real σ * b.real σ := rfl

@[simp] theorem real_div (a b : Expr α) : (a / b).real σ = a.real σ / b.real σ := rfl

@[simp] theorem real_neg (a : Expr α) : (-a).real σ = -a.real σ := rfl

@[simp] theorem real_zero : (0 : Expr α).real σ = 0 := ExactScalar.real_zero

@[simp] theorem real_one : (1 : Expr α).real σ = 1 := ExactScalar.real_one

/-- The derivative of a function is its slope times the derivative of the operand. -/
theorem real_diffUnary {op : UnaryOp} {a da : Expr α} :
    (diffUnary op a da).real σ = op.slope (a.real σ) * da.real σ := by
  cases op <;> simp only [diffUnary, real_add, real_sub, real_mul, real_div, real_neg, real_one,
    real_unary, UnaryOp.real, UnaryOp.slope]
  case tanh => rw [UnaryOp.one_sub_tanh_sq, one_div, ← div_eq_inv_mul]
  case sqrt => rw [one_div, ← div_eq_inv_mul]
  all_goals ring

/-- Closed expressions have derivative zero. -/
theorem real_diff_of_isClosed {e : Expr α} (h : e.isClosed = true) (s : Nat) :
    (e.diff s).real σ = 0 := by
  induction e with
  | const => exact real_zero
  | symbol => simp [isClosed] at h
  | unary id op a iha => rw [diff, real_diffUnary, iha h, mul_zero]
  | binary id op a b iha ihb =>
      simp only [isClosed, Bool.and_eq_true] at h
      have ha := iha h.1
      have hb := ihb h.2
      cases op <;> simp [diff, diffBinary, h.2, ha, hb]

/-- The derivative of a combination is made of those of both operands. -/
theorem real_diff_binary {id : Nat} {op : BinaryOp} {a b : Expr α} (s : Nat)
    (h : (binary id op a b).Within .smooth σ) :
    ((binary id op a b).diff s).real σ =
      op.slopeLeft (a.real σ) (b.real σ) * (a.diff s).real σ +
        op.slopeRight (a.real σ) (b.real σ) * (b.diff s).real σ := by
  obtain ⟨_, _, hop⟩ := h
  cases op with
  | add => simp [diff, diffBinary, BinaryOp.slopeLeft, BinaryOp.slopeRight]
  | sub =>
      simp only [diff, diffBinary, BinaryOp.slopeLeft, BinaryOp.slopeRight, real_sub]
      ring
  | mul =>
      simp only [diff, diffBinary, BinaryOp.slopeLeft, BinaryOp.slopeRight, real_add, real_mul]
      ring
  | div =>
      have hb : b.real σ ≠ 0 := hop
      simp only [diff, diffBinary, BinaryOp.slopeLeft, BinaryOp.slopeRight, real_sub, real_mul,
        real_div]
      field_simp
      ring
  | pow =>
      -- the derivative of a closed exponent is zero, and any other needs a positive base
      by_cases hclosed : b.isClosed = true
      · have hb := real_diff_of_isClosed (σ := σ) hclosed s
        simp only [diff, diffBinary, hclosed, if_true, real_mul, real_sub, real_one, real_binary,
          BinaryOp.real, BinaryOp.slopeLeft, BinaryOp.slopeRight, hb]
        ring
      · have ha : 0 < a.real σ := hop.resolve_right fun h => hclosed h.2.1
        simp only [diff, diffBinary, if_neg hclosed, real_mul, real_add, real_div, real_binary,
          real_unary, BinaryOp.real, UnaryOp.real, BinaryOp.slopeLeft, BinaryOp.slopeRight]
        rw [Real.rpow_sub_one ha.ne']
        ring

/-! ## Truth -/

/-- The value of an operation changes as its slopes say. -/
theorem hasDerivAt_binary {op : BinaryOp} {a b : Expr α} {s : Nat} {da db : ℝ}
    (hop : op.Regular .smooth (b.isClosed = true) (a.real σ) (b.real σ))
    (ha : HasDerivAt (fun t => a.real (Function.update σ s t)) da (σ s))
    (hb : HasDerivAt (fun t => b.real (Function.update σ s t)) db (σ s)) :
    HasDerivAt
      (fun t => op.real (a.real (Function.update σ s t)) (b.real (Function.update σ s t)))
      (op.slopeLeft (a.real σ) (b.real σ) * da + op.slopeRight (a.real σ) (b.real σ) * db)
      (σ s) := by
  have hself : Function.update σ s (σ s) = σ := Function.update_eq_self s σ
  cases op with
  | add => exact (ha.add hb).congr_deriv (by simp [BinaryOp.slopeLeft, BinaryOp.slopeRight])
  | sub =>
      refine (ha.sub hb).congr_deriv ?_
      rw [BinaryOp.slopeLeft, BinaryOp.slopeRight]
      ring
  | mul =>
      refine (ha.mul hb).congr_deriv ?_
      rw [BinaryOp.slopeLeft, BinaryOp.slopeRight, hself]
      ring
  | div =>
      have hne : b.real σ ≠ 0 := hop
      refine (ha.div hb (by rw [hself]; exact hne)).congr_deriv ?_
      rw [BinaryOp.slopeLeft, BinaryOp.slopeRight, hself]
      field_simp
      ring
  | pow =>
      rcases hop with hpos | ⟨hne, hclosed, -⟩
      · refine (ha.rpow hb (by rw [hself]; exact hpos)).congr_deriv ?_
        rw [BinaryOp.slopeLeft, BinaryOp.slopeRight, hself]
        ring
      · -- a closed exponent is a constant, and its own derivative is therefore zero
        have hconst : (fun t => b.real (Function.update σ s t)) = fun _ => b.real σ := by
          funext t
          exact real_eq_of_isClosed hclosed _ _
        have hdb : db = 0 := by
          rw [hconst] at hb
          exact hb.unique (hasDerivAt_const _ _)
        have hfun : (fun t => BinaryOp.pow.real (a.real (Function.update σ s t))
            (b.real (Function.update σ s t))) = fun t =>
            a.real (Function.update σ s t) ^ b.real σ := by
          funext t
          rw [BinaryOp.real, real_eq_of_isClosed hclosed _ σ]
        rw [hfun]
        refine (ha.rpow_const (Or.inl (by rw [hself]; exact hne))).congr_deriv ?_
        rw [BinaryOp.slopeLeft, BinaryOp.slopeRight, hself, hdb]
        ring

/-- **The value of the derivative is the derivative of the value.** -/
theorem hasDerivAt_real {e : Expr α} (h : e.Within .smooth σ) (s : Nat) :
    HasDerivAt (fun t => e.real (Function.update σ s t)) ((e.diff s).real σ) (σ s) := by
  have hself : Function.update σ s (σ s) = σ := Function.update_eq_self s σ
  induction e with
  | const id v =>
      rw [diff, real_zero]
      exact hasDerivAt_const _ _
  | symbol id name =>
      by_cases hid : id = s
      · subst hid
        have hfun : (fun t => (symbol id name : Expr α).real (Function.update σ id t)) =
            fun t => t := by
          funext t
          exact Function.update_self id t σ
        rw [diff, if_pos rfl, real_one, hfun]
        exact hasDerivAt_id' _
      · have hfun : (fun t => (symbol id name : Expr α).real (Function.update σ s t)) =
            fun _ => σ id := by
          funext t
          exact Function.update_of_ne hid t σ
        rw [diff, if_neg hid, real_zero, hfun]
        exact hasDerivAt_const _ _
  | unary id op a iha =>
      have hop : op.Regular .smooth (a.real (Function.update σ s (σ s))) := by
        rw [hself]
        exact h.2
      have hcomp := (UnaryOp.hasDerivAt_real hop).comp (σ s) (iha h.1)
      rw [diff, real_diffUnary]
      exact hcomp.congr_deriv (by rw [hself])
  | binary id op a b iha ihb =>
      rw [real_diff_binary s h]
      exact hasDerivAt_binary h.2.2 (iha h.1) (ihb h.2.1)

/-! ## Openness -/

/-- **Around a smooth point an expression is smooth.** -/
theorem eventually_within {e : Expr α} (h : e.Within .smooth σ) (s : Nat) :
    ∀ᶠ t in 𝓝 (σ s), e.Within .smooth (Function.update σ s t) := by
  have hself : Function.update σ s (σ s) = σ := Function.update_eq_self s σ
  induction e with
  | const => exact Eventually.of_forall fun _ => trivial
  | symbol => exact Eventually.of_forall fun _ => trivial
  | unary id op a iha =>
      have hcont := (hasDerivAt_real h.1 s).continuousAt
      exact (iha h.1).and (UnaryOp.eventually_regular (by rw [hself]; exact h.2) hcont)
  | binary id op a b iha ihb =>
      have hca := (hasDerivAt_real h.1 s).continuousAt
      have hcb := (hasDerivAt_real h.2.1 s).continuousAt
      have hop : ∀ᶠ t in 𝓝 (σ s), op.Regular .smooth (b.isClosed = true)
          (a.real (Function.update σ s t)) (b.real (Function.update σ s t)) := by
        have hreg := h.2.2
        cases op with
        | div => exact hcb.eventually_ne (by rw [hself]; exact hreg)
        | pow =>
            rcases hreg with hpos | ⟨hne, hclosed, n, hn⟩
            · have hlt : 0 < a.real (Function.update σ s (σ s)) := by rw [hself]; exact hpos
              exact (hca.eventually_const_lt hlt).mono fun t ht => Or.inl ht
            · have hat : a.real (Function.update σ s (σ s)) ≠ 0 := by rw [hself]; exact hne
              refine (hca.eventually_ne hat).mono fun t ht => Or.inr ⟨ht, hclosed, n, ?_⟩
              rw [real_eq_of_isClosed hclosed _ σ, hn]
        | _ => exact Eventually.of_forall fun _ => trivial
      exact (iha h.1).and ((ihb h.2.1).and hop)

/-! ## Closure -/

theorem Within.diffUnary {op : UnaryOp} {a da : Expr α} (ha : a.Within .smooth σ)
    (hda : da.Within .smooth σ) (hop : op.Regular .smooth (a.real σ)) :
    (Expr.diffUnary op a da).Within .smooth σ := by
  -- what `asin` and `acos` take the root of
  have hroot : -1 < a.real σ ∧ a.real σ < 1 → 0 < 1 - a.real σ * a.real σ := by
    rintro ⟨h₁, h₂⟩
    nlinarith
  cases op with
  | neg => exact ⟨hda, trivial⟩
  | sin => exact ⟨⟨ha, trivial⟩, hda, trivial⟩
  | cos => exact ⟨⟨⟨ha, trivial⟩, hda, trivial⟩, trivial⟩
  | tan => exact ⟨hda, ⟨⟨ha, trivial⟩, ⟨ha, trivial⟩, trivial⟩, mul_ne_zero hop hop⟩
  | asin =>
      have hpos := hroot hop
      refine ⟨hda, ⟨⟨trivial, ⟨ha, ha, trivial⟩, trivial⟩, ?_⟩, ?_⟩
      · simpa [UnaryOp.Regular] using hpos
      · simpa [BinaryOp.Regular, UnaryOp.real] using (Real.sqrt_pos.mpr hpos).ne'
  | acos =>
      have hpos := hroot hop
      refine ⟨⟨hda, ⟨⟨trivial, ⟨ha, ha, trivial⟩, trivial⟩, ?_⟩, ?_⟩, trivial⟩
      · simpa [UnaryOp.Regular] using hpos
      · simpa [BinaryOp.Regular, UnaryOp.real] using (Real.sqrt_pos.mpr hpos).ne'
  | atan =>
      refine ⟨hda, ⟨trivial, ⟨ha, ha, trivial⟩, trivial⟩, ?_⟩
      have hpos : 0 < 1 + a.real σ * a.real σ := by nlinarith [mul_self_nonneg (a.real σ)]
      simpa [BinaryOp.Regular] using hpos.ne'
  | sinh => exact ⟨⟨ha, trivial⟩, hda, trivial⟩
  | cosh => exact ⟨⟨ha, trivial⟩, hda, trivial⟩
  | tanh =>
      have hc : Real.cosh (a.real σ) ≠ 0 := (Real.cosh_pos _).ne'
      exact ⟨hda, ⟨⟨ha, trivial⟩, ⟨ha, trivial⟩, trivial⟩, mul_ne_zero hc hc⟩
  | exp => exact ⟨⟨ha, trivial⟩, hda, trivial⟩
  | log => exact ⟨hda, ha, ne_of_gt hop⟩
  | sqrt =>
      refine ⟨hda, ⟨⟨trivial, trivial, trivial⟩, ⟨ha, hop⟩, trivial⟩, ?_⟩
      have hpos := Real.sqrt_pos.mpr hop
      have htwo : (0 : ℝ) < (1 + 1) * Real.sqrt (a.real σ) := by positivity
      simpa [BinaryOp.Regular, UnaryOp.real] using htwo.ne'

theorem Within.diffBinary {op : BinaryOp} {a b da db : Expr α} (ha : a.Within .smooth σ)
    (hb : b.Within .smooth σ) (hda : da.Within .smooth σ) (hdb : db.Within .smooth σ)
    (hop : op.Regular .smooth (b.isClosed = true) (a.real σ) (b.real σ)) :
    (Expr.diffBinary op a b da db).Within .smooth σ := by
  cases op with
  | add => exact ⟨hda, hdb, trivial⟩
  | sub => exact ⟨hda, hdb, trivial⟩
  | mul => exact ⟨⟨hda, hb, trivial⟩, ⟨ha, hdb, trivial⟩, trivial⟩
  | div =>
      exact ⟨⟨⟨hda, hb, trivial⟩, ⟨ha, hdb, trivial⟩, trivial⟩, ⟨hb, hb, trivial⟩,
        mul_ne_zero hop hop⟩
  | pow =>
      rw [Expr.diffBinary]
      split
      · rename_i hclosed
        have hless : (b - 1 : Expr α).isClosed = true := by
          show (b.isClosed && true) = true
          rw [hclosed]
          rfl
        -- an integral exponent stays integral when it is lowered by one
        refine ⟨⟨hb, ⟨ha, ⟨hb, trivial, trivial⟩, ?_⟩, trivial⟩, hda, trivial⟩
        rcases hop with hpos | ⟨hne, -, n, hn⟩
        · exact Or.inl hpos
        · exact Or.inr ⟨hne, hless, n - 1, by simp [hn]⟩
      · rename_i hopen
        have hpos : 0 < a.real σ := hop.resolve_right fun h => hopen h.2.1
        exact ⟨⟨ha, hb, Or.inl hpos⟩, ⟨⟨hdb, ⟨ha, hpos⟩, trivial⟩,
          ⟨hb, ⟨hda, ha, hpos.ne'⟩, trivial⟩, trivial⟩, trivial⟩

/-- **The derivative of a smooth expression is smooth.** -/
theorem Within.diff {e : Expr α} (h : e.Within .smooth σ) (s : Nat) :
    (e.diff s).Within .smooth σ := by
  induction e with
  | const => trivial
  | symbol id name =>
      rw [Expr.diff]
      split <;> trivial
  | unary id op a iha => exact h.1.diffUnary (iha h.1) h.2
  | binary id op a b iha ihb => exact h.1.diffBinary h.2.1 (iha h.1) (ihb h.2.1) h.2.2

end Expr

end ExplicitOde
