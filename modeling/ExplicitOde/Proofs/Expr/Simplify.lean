import ExplicitOde.Proofs.Exact.Value
import ExplicitOde.Proofs.Expr.Pool
import ExplicitOde.Proofs.Expr.Shortcut

/-!
# Building keeps values

An operation may be built as a node of its own, folded to a constant, or left out because one of
its operands does not matter. Whichever it is, the result has the value of the operation, and it is
regular wherever the operands and the operation are: `mkUnary_ensures` and `mkBinary_ensures`.

Leaving out a difference because its operands are one node is right only in a pool, where one
identity is one node.
-/

namespace ExplicitOde

variable {α : Type} [ExactScalar α] {r : Regularity} {σ : Nat → ℝ} {pool : Pool α}

/-- An expression of a pool that has the value `v`, and is regular if `ok` holds. -/
structure Pool.Has (pool : Pool α) (r : Regularity) (σ : Nat → ℝ) (e : Expr α) (v : ℝ)
    (ok : Prop) : Prop where
  mem : e ∈ pool
  real : e.real σ = v
  within : ok → e.Within r σ

namespace Pool.Has

theorem of_le {after : Pool α} {e : Expr α} {v : ℝ} {ok : Prop} (h : pool.Has r σ e v ok)
    (hle : pool ≤ after) : after.Has r σ e v ok :=
  ⟨mem_of_le hle h.mem, h.real, h.within⟩

theorem imp {e : Expr α} {v : ℝ} {ok ok' : Prop} (h : pool.Has r σ e v ok) (hok : ok' → ok) :
    pool.Has r σ e v ok' :=
  ⟨h.mem, h.real, fun h' => h.within (hok h')⟩

theorem congr {e : Expr α} {v v' : ℝ} {ok : Prop} (h : pool.Has r σ e v ok) (hv : v = v') :
    pool.Has r σ e v' ok :=
  hv ▸ h

end Pool.Has

namespace Expr

/-! ## Constants -/

theorem real_of_isConstant {e : Expr α} {v : α} (h : e.isConstant v = true) :
    e.real σ = ExactScalar.real v := by
  cases e with
  | const id w => exact (ExactScalar.equal_iff w v).mp h
  | symbol => simp [isConstant, constant?] at h
  | unary => simp [isConstant, constant?] at h
  | binary => simp [isConstant, constant?] at h

theorem real_of_isZero {e : Expr α} (h : e.isZero = true) : e.real σ = 0 := by
  rw [real_of_isConstant h, ExactScalar.real_zero]

theorem real_of_isOne {e : Expr α} (h : e.isOne = true) : e.real σ = 1 := by
  rw [real_of_isConstant h, ExactScalar.real_one]

theorem real_of_isNegOne {e : Expr α} (h : e.isNegOne = true) : e.real σ = -1 := by
  rw [real_of_isConstant h, ExactScalar.real_negOne]

/-- Expressions that are the same have the same value. -/
theorem real_of_isSame {a b : Expr α} (ha : a ∈ pool) (hb : b ∈ pool) (h : a.isSame b = true) :
    a.real σ = b.real σ := by
  unfold isSame at h
  rw [Bool.or_eq_true] at h
  rcases h with h | h
  · rw [pool.eq_of_id a ha b hb (by simpa using h)]
  · split at h
    · rw [real_const, real_const]
      exact (ExactScalar.equal_iff _ _).mp h
    · simp at h

/-! ## Shortcuts -/

/-- The value of a result that needs no node of its own. -/
noncomputable def shortcutReal (σ : Nat → ℝ) : Shortcut α → ℝ
  | .constant v => ExactScalar.real v
  | .existing e => e.real σ
  | .negated e => -e.real σ

/-- The rules for neutral operands keep the value. -/
theorem neutralShortcut?_sound {op : BinaryOp} {a b : Expr α} {s : Shortcut α} (ha : a ∈ pool)
    (hb : b ∈ pool) (h : neutralShortcut? op a b = some s) :
    shortcutReal σ s = op.real (a.real σ) (b.real σ) := by
  cases op with
  | add =>
      simp only [neutralShortcut?] at h
      split_ifs at h with h₁ h₂ <;> cases h
      · simp [shortcutReal, BinaryOp.real, real_of_isZero h₁]
      · simp [shortcutReal, BinaryOp.real, real_of_isZero h₂]
  | sub =>
      simp only [neutralShortcut?] at h
      split_ifs at h with h₁ h₂ h₃ <;> cases h
      · simp [shortcutReal, BinaryOp.real, real_of_isZero h₁]
      · simp [shortcutReal, BinaryOp.real, real_of_isZero h₂]
      · simp [shortcutReal, BinaryOp.real, real_of_isSame ha hb h₃]
  | mul =>
      simp only [neutralShortcut?] at h
      split_ifs at h with h₁ h₂ h₃ h₄ h₅ <;> cases h
      · rcases (Bool.or_eq_true _ _).mp h₁ with h₁ | h₁ <;>
          simp [shortcutReal, BinaryOp.real, real_of_isZero h₁]
      · simp [shortcutReal, BinaryOp.real, real_of_isOne h₂]
      · simp [shortcutReal, BinaryOp.real, real_of_isOne h₃]
      · simp [shortcutReal, BinaryOp.real, real_of_isNegOne h₄]
      · simp [shortcutReal, BinaryOp.real, real_of_isNegOne h₅]
  | div =>
      simp only [neutralShortcut?] at h
      split_ifs at h with h₁ h₂ <;> cases h
      · simp [shortcutReal, BinaryOp.real, real_of_isZero h₁]
      · simp [shortcutReal, BinaryOp.real, real_of_isOne h₂]
  | pow =>
      simp only [neutralShortcut?] at h
      split_ifs at h with h₁ h₂ <;> cases h
      · simp [shortcutReal, BinaryOp.real, real_of_isZero h₁]
      · simp [shortcutReal, BinaryOp.real, real_of_isOne h₂]

/-- An operation that needs no node keeps its value. -/
theorem binaryShortcut?_sound {op : BinaryOp} {a b : Expr α} {s : Shortcut α} (ha : a ∈ pool)
    (hb : b ∈ pool) (h : binaryShortcut? op a b = some s) :
    shortcutReal σ s = op.real (a.real σ) (b.real σ) := by
  rcases binaryShortcut?_cases h with ⟨_, _, _, _, _, rfl, rfl, hfold, rfl⟩ | h
  · exact (ExactScalar.foldBinary_exact hfold).2
  · exact neutralShortcut?_sound ha hb h

/-! ## Building -/

theorem mkConst_ensures (r : Regularity) (σ : Nat → ℝ) (v : α) :
    pool.Ensures (mkConst v) fun after e => after.Has r σ e (ExactScalar.real v) True :=
  (mkConst_mem v).imp fun after e _ ⟨hmem, _, he⟩ => by
    subst he
    exact ⟨hmem, rfl, fun _ => trivial⟩

theorem mkZero_ensures (r : Regularity) (σ : Nat → ℝ) :
    pool.Ensures mkZero fun after e => after.Has r σ e 0 True :=
  (mkConst_ensures r σ Scalar.zero).imp fun _ _ _ h => h.congr ExactScalar.real_zero

theorem mkOne_ensures (r : Regularity) (σ : Nat → ℝ) :
    pool.Ensures mkOne fun after e => after.Has r σ e 1 True :=
  (mkConst_ensures r σ Scalar.one).imp fun _ _ _ h => h.congr ExactScalar.real_one

omit [ExactScalar α] in
theorem mkSymbol_ensures (name : String) :
    pool.Ensures (mkSymbol name) fun after e => e ∈ after ∧ e.isSymbol = true :=
  ⟨pool.grow (symbol pool.next name) rfl (by simp [operands]), Pool.le_grow _ _, rfl,
    Pool.mem_grow _ _, rfl⟩

/-- A new node for a function. -/
theorem newUnary_ensures {op : UnaryOp} {a : Expr α} {u : ℝ} {p : Prop}
    (ha : pool.Has r σ a u p) :
    pool.Ensures (do return unary (← freshId) op a) fun after e =>
      after.Has r σ e (op.real u) (p ∧ op.Regular r u) := by
  refine (newUnary_mem op ha.mem).imp fun after e _ ⟨hmem, id, he⟩ => ?_
  subst he
  refine ⟨hmem, (real_unary σ id op a).trans (by rw [ha.real]), ?_⟩
  rintro ⟨hp, hop⟩
  exact ⟨ha.within hp, ha.real ▸ hop⟩

/-- **Building a function keeps its value.** -/
theorem mkUnary_ensures {op : UnaryOp} {a : Expr α} {u : ℝ} {p : Prop} (ha : pool.Has r σ a u p) :
    pool.Ensures (mkUnary op a) fun after e =>
      after.Has r σ e (op.real u) (p ∧ op.Regular r u) := by
  rw [mkUnary]
  cases hs : unaryShortcut? op a with
  | none => exact newUnary_ensures ha
  | some s =>
      rcases unaryShortcut?_cases hs with ⟨id, v, w, rfl, hfold, rfl⟩ | ⟨id, inner, rfl, rfl, rfl⟩
      · refine (mkConst_ensures r σ w).imp fun after e _ h => ⟨h.mem, ?_, fun _ => h.within trivial⟩
        rw [h.real, (ExactScalar.foldUnary_exact hfold).2, ← ha.real, real_const]
      · refine Pool.Ensures.pure ⟨?_, ?_, fun h => (ha.within h.1).1⟩
        · exact pool.operand_mem _ ha.mem inner (by simp [operands])
        · rw [← ha.real, real_unary, UnaryOp.real, UnaryOp.real, neg_neg]

theorem mkNeg_ensures {a : Expr α} {u : ℝ} {p : Prop} (ha : pool.Has r σ a u p) :
    pool.Ensures (mkNeg a) fun after e => after.Has r σ e (-u) p :=
  (mkUnary_ensures ha).imp fun _ _ _ h => h.imp fun hp => ⟨hp, by cases r <;> trivial⟩

/-- A new node for an operation on two expressions. -/
theorem newBinary_ensures {op : BinaryOp} {a b : Expr α} {u v : ℝ} {p q : Prop}
    (ha : pool.Has r σ a u p) (hb : pool.Has r σ b v q) :
    pool.Ensures (do return binary (← freshId) op a b) fun after e =>
      after.Has r σ e (op.real u v) (p ∧ q ∧ op.Regular r (b.isClosed = true) u v) := by
  refine (newBinary_mem op ha.mem hb.mem).imp fun after e _ ⟨hmem, id, he⟩ => ?_
  subst he
  refine ⟨hmem, (real_binary σ id op a b).trans (by rw [ha.real, hb.real]), ?_⟩
  rintro ⟨hp, hq, hop⟩
  exact ⟨ha.within hp, hb.within hq, by rw [ha.real, hb.real]; exact hop⟩

/-- **Building an operation on two expressions keeps its value.** -/
theorem mkBinary_ensures {op : BinaryOp} {a b : Expr α} {u v : ℝ} {p q : Prop}
    (ha : pool.Has r σ a u p) (hb : pool.Has r σ b v q) :
    pool.Ensures (mkBinary op a b) fun after e =>
      after.Has r σ e (op.real u v) (p ∧ q ∧ op.Regular r (b.isClosed = true) u v) := by
  have hold : ∀ e, e = a ∨ e = b → pool.Has r σ e (e.real σ) (p ∧ q) := by
    rintro e (rfl | rfl)
    · exact ⟨ha.mem, rfl, fun h => ha.within h.1⟩
    · exact ⟨hb.mem, rfl, fun h => hb.within h.2⟩
  rw [mkBinary]
  cases hs : binaryShortcut? op a b with
  | none => exact newBinary_ensures ha hb
  | some s =>
      have hamong := binaryShortcut?_among hs
      have hval := binaryShortcut?_sound (σ := σ) ha.mem hb.mem hs
      rw [ha.real, hb.real] at hval
      cases s with
      | constant w =>
          exact (mkConst_ensures r σ w).imp fun _ _ _ h => (h.congr hval).imp fun _ => trivial
      | existing e =>
          exact Pool.Ensures.pure (((hold e hamong).congr hval).imp fun h => ⟨h.1, h.2.1⟩)
      | negated e =>
          exact (mkNeg_ensures (hold e hamong)).imp fun _ _ _ h =>
            (h.congr hval).imp fun h' => ⟨h'.1, h'.2.1⟩

theorem mkAdd_ensures {a b : Expr α} {u v : ℝ} {p q : Prop} (ha : pool.Has r σ a u p)
    (hb : pool.Has r σ b v q) :
    pool.Ensures (mkAdd a b) fun after e => after.Has r σ e (u + v) (p ∧ q) :=
  (mkBinary_ensures ha hb).imp fun _ _ _ h => h.imp fun h' => ⟨h'.1, h'.2, by cases r <;> trivial⟩

theorem mkSub_ensures {a b : Expr α} {u v : ℝ} {p q : Prop} (ha : pool.Has r σ a u p)
    (hb : pool.Has r σ b v q) :
    pool.Ensures (mkSub a b) fun after e => after.Has r σ e (u - v) (p ∧ q) :=
  (mkBinary_ensures ha hb).imp fun _ _ _ h => h.imp fun h' => ⟨h'.1, h'.2, by cases r <;> trivial⟩

theorem mkMul_ensures {a b : Expr α} {u v : ℝ} {p q : Prop} (ha : pool.Has r σ a u p)
    (hb : pool.Has r σ b v q) :
    pool.Ensures (mkMul a b) fun after e => after.Has r σ e (u * v) (p ∧ q) :=
  (mkBinary_ensures ha hb).imp fun _ _ _ h => h.imp fun h' => ⟨h'.1, h'.2, by cases r <;> trivial⟩

theorem mkDiv_ensures {a b : Expr α} {u v : ℝ} {p q : Prop} (ha : pool.Has r σ a u p)
    (hb : pool.Has r σ b v q) :
    pool.Ensures (mkDiv a b) fun after e => after.Has r σ e (u / v) (p ∧ q ∧ v ≠ 0) :=
  (mkBinary_ensures ha hb).imp fun _ _ _ h => h.imp fun h' =>
    ⟨h'.1, h'.2.1, by cases r <;> exact h'.2.2⟩

end Expr

end ExplicitOde
