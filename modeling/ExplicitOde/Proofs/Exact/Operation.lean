import ExplicitOde.Scalar.Op
import Mathlib.Analysis.SpecialFunctions.Pow.Real
import Mathlib.Analysis.SpecialFunctions.Trigonometric.Arctan
import Mathlib.Analysis.SpecialFunctions.Trigonometric.Inverse

/-!
# What operations mean over the real numbers

Operations are read as the real functions they are named for. A real function of this library has
a value everywhere, a logarithm of a negative number too, so beside the function stands the
condition under which that value is what the operation means: `Regular`. It comes in two
strengths. An operation is *defined* where it has a value, and *smooth* where it can be
differentiated as well; the two differ at the ends of the domains of `sqrt`, `asin` and `acos` and
for powers.
-/

namespace ExplicitOde

/-- What is asked of an operation at a point. -/
inductive Regularity where
  /-- It has a value. -/
  | defined
  /-- It can be differentiated. -/
  | smooth

namespace UnaryOp

/-- The real function of an operation. -/
noncomputable def real : UnaryOp → ℝ → ℝ
  | neg, v => -v
  | sin, v => Real.sin v
  | cos, v => Real.cos v
  | tan, v => Real.tan v
  | asin, v => Real.arcsin v
  | acos, v => Real.arccos v
  | atan, v => Real.arctan v
  | sinh, v => Real.sinh v
  | cosh, v => Real.cosh v
  | tanh, v => Real.tanh v
  | exp, v => Real.exp v
  | log, v => Real.log v
  | sqrt, v => Real.sqrt v

/-- Where a function of one number is regular. -/
def Regular : Regularity → UnaryOp → ℝ → Prop
  | _, tan, v => Real.cos v ≠ 0
  | .defined, asin, v => -1 ≤ v ∧ v ≤ 1
  | .smooth, asin, v => -1 < v ∧ v < 1
  | .defined, acos, v => -1 ≤ v ∧ v ≤ 1
  | .smooth, acos, v => -1 < v ∧ v < 1
  | _, log, v => 0 < v
  | .defined, sqrt, v => 0 ≤ v
  | .smooth, sqrt, v => 0 < v
  | _, _, _ => True

/-- A smooth point is regular in either sense. -/
theorem Regular.of_smooth {op : UnaryOp} {v : ℝ} (r : Regularity) (h : op.Regular .smooth v) :
    op.Regular r v := by
  cases r with
  | smooth => exact h
  | defined =>
      cases op
      case asin => exact ⟨h.1.le, h.2.le⟩
      case acos => exact ⟨h.1.le, h.2.le⟩
      case sqrt => exact le_of_lt h
      all_goals exact h

end UnaryOp

namespace BinaryOp

/-- The real function of an operation. -/
noncomputable def real : BinaryOp → ℝ → ℝ → ℝ
  | add, u, v => u + v
  | sub, u, v => u - v
  | mul, u, v => u * v
  | div, u, v => u / v
  | pow, u, v => u ^ v

/-- Where an operation on two numbers is regular. A power of a negative number has a value for
integral exponents only; it is smooth if `fixed` says that its exponent is the same everywhere. -/
def Regular : Regularity → BinaryOp → (fixed : Prop) → ℝ → ℝ → Prop
  | _, div, _, _, v => v ≠ 0
  | .defined, pow, _, u, v => 0 < u ∨ u = 0 ∧ 0 ≤ v ∨ u ≠ 0 ∧ ∃ n : ℤ, v = n
  | .smooth, pow, fixed, u, v => 0 < u ∨ u ≠ 0 ∧ fixed ∧ ∃ n : ℤ, v = n
  | _, _, _, _, _ => True

/-- A smooth point is regular in either sense. -/
theorem Regular.of_smooth {op : BinaryOp} {fixed : Prop} {u v : ℝ} (r : Regularity)
    (h : op.Regular .smooth fixed u v) : op.Regular r fixed u v := by
  cases r with
  | smooth => exact h
  | defined =>
      cases op
      case pow =>
        rcases h with h | ⟨hu, _, hv⟩
        · exact Or.inl h
        · exact Or.inr (Or.inr ⟨hu, hv⟩)
      all_goals exact h

/-- Whether an operation is defined does not hang on what is fixed. -/
theorem regular_defined_congr (op : BinaryOp) (fixed fixed' : Prop) (u v : ℝ) :
    op.Regular .defined fixed u v ↔ op.Regular .defined fixed' u v := by
  cases op <;> rfl

end BinaryOp

end ExplicitOde
