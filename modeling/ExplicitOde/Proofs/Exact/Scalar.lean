import ExplicitOde.Proofs.Exact.Operation
import ExplicitOde.Scalar.Basic

/-!
# Exact numbers

A type of numbers is exact if its numbers stand for real numbers and folding an operation gives
the number that the operation has as its value. Nothing is said about which operations fold, only
that those which do are defined and not rounded; so what holds for all exact numbers holds whatever
is left unfolded. The real numbers themselves are exact.

`Interpretation.exact` is evaluation in exact arithmetic. Its values are absent where an operation
has none, so that a value says that everything below it was defined.
-/

namespace ExplicitOde

/-- Numbers that stand for real numbers and fold without rounding. -/
class ExactScalar (α : Type) extends Scalar α where
  /-- The real number that is stood for. -/
  real : α → ℝ
  real_zero : real Scalar.zero = 0
  real_one : real Scalar.one = 1
  real_negOne : real Scalar.negOne = -1
  real_half : real Scalar.half = 1 / 2
  /-- Equality tells the numbers apart that are stood for. -/
  equal_iff : ∀ u v : α, Scalar.equal u v = true ↔ real u = real v
  foldUnary_exact : ∀ {op : UnaryOp} {v w : α}, Scalar.foldUnary? op v = some w →
    op.Regular .defined (real v) ∧ real w = op.real (real v)
  foldBinary_exact : ∀ {op : BinaryOp} {u v w : α}, Scalar.foldBinary? op u v = some w →
    op.Regular .defined True (real u) (real v) ∧ real w = op.real (real u) (real v)

attribute [simp] ExactScalar.real_zero ExactScalar.real_one ExactScalar.real_negOne
  ExactScalar.real_half

open Classical in
/-- The real numbers, where every operation folds that is defined. -/
noncomputable instance : ExactScalar ℝ where
  zero := 0
  one := 1
  negOne := -1
  half := 1 / 2
  pi := Real.pi
  ofDecimal d := d.coefficient * (10 : ℝ) ^ d.exponent
  equal u v := decide (u = v)
  foldUnary? op v := if op.Regular .defined v then some (op.real v) else none
  foldBinary? op u v := if op.Regular .defined True u v then some (op.real u v) else none
  real v := v
  real_zero := rfl
  real_one := rfl
  real_negOne := rfl
  real_half := rfl
  equal_iff u v := decide_eq_true_iff
  foldUnary_exact {op v w} h := by
    obtain ⟨hr, hw⟩ := Option.ite_none_right_eq_some.mp h
    exact ⟨hr, (Option.some.inj hw).symm⟩
  foldBinary_exact {op u v w} h := by
    obtain ⟨hr, hw⟩ := Option.ite_none_right_eq_some.mp h
    exact ⟨hr, (Option.some.inj hw).symm⟩

/-- The rational numbers, which all finite numbers of double precision are. Arithmetic on them
folds. The circle constant is the number of double precision next to it. -/
instance : ExactScalar ℚ where
  zero := 0
  one := 1
  negOne := -1
  half := 1 / 2
  pi := 884279719003555 / 281474976710656
  ofDecimal d := d.coefficient * (10 : ℚ) ^ d.exponent
  equal u v := decide (u = v)
  foldUnary? op v :=
    match op with
    | .neg => some (-v)
    | _ => none
  foldBinary? op u v :=
    match op with
    | .add => some (u + v)
    | .sub => some (u - v)
    | .mul => some (u * v)
    | .div => if v = 0 then none else some (u / v)
    | .pow => none
  real v := v
  real_zero := Rat.cast_zero
  real_one := Rat.cast_one
  real_negOne := by norm_num
  real_half := by norm_num
  equal_iff u v := decide_eq_true_iff.trans Rat.cast_inj.symm
  foldUnary_exact {op v w} h := by
    cases op
    case neg =>
      injection h with h
      exact ⟨trivial, by rw [← h, UnaryOp.real, Rat.cast_neg]⟩
    all_goals exact absurd h (by simp)
  foldBinary_exact {op u v w} h := by
    cases op with
    | add =>
        injection h with h
        exact ⟨trivial, by rw [← h, BinaryOp.real, Rat.cast_add]⟩
    | sub =>
        injection h with h
        exact ⟨trivial, by rw [← h, BinaryOp.real, Rat.cast_sub]⟩
    | mul =>
        injection h with h
        exact ⟨trivial, by rw [← h, BinaryOp.real, Rat.cast_mul]⟩
    | div =>
        obtain ⟨hv, hw⟩ := Option.ite_none_left_eq_some.mp h
        injection hw with hw
        exact ⟨Rat.cast_ne_zero.mpr hv, by rw [← hw, BinaryOp.real, Rat.cast_div]⟩
    | pow => exact absurd h (by simp)

open Classical in
/-- Evaluation in exact arithmetic, absent where an operation is not defined. -/
noncomputable def Interpretation.exact {α : Type} [ExactScalar α] :
    Interpretation α (Option ℝ) where
  constant v := some (ExactScalar.real v)
  unary op v := v.bind fun v => if op.Regular .defined v then some (op.real v) else none
  binary op u v := u.bind fun u => v.bind fun v =>
    if op.Regular .defined True u v then some (op.real u v) else none
  unbound := none

/-- Evaluation by the real functions, which have a value everywhere. -/
noncomputable def Interpretation.total {α : Type} [ExactScalar α] : Interpretation α ℝ where
  constant := ExactScalar.real
  unary := UnaryOp.real
  binary := BinaryOp.real
  unbound := 0

end ExplicitOde
