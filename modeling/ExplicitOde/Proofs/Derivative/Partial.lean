import ExplicitOde.Derivative.Partial
import ExplicitOde.Proofs.Derivative.Rules
import ExplicitOde.Proofs.Expr.Closure

/-!
# Partial derivatives that are built have the slopes as values

Each partial derivative of a node is an expression with the slope of the operation as its value, and
it is regular where the node is smooth. Two things are not the same as on paper: some partial
derivatives are written with the node itself, and the one of a power by its exponent is regular only
where the base is positive.
-/

namespace ExplicitOde

namespace Expr

variable {α : Type} [ExactScalar α] {r : Regularity} {σ : Nat → ℝ} {pool : Pool α}

/-- The operand of a function, in the pool of the function. -/
theorem has_operand {id : Nat} {op : UnaryOp} {a : Expr α} (h : unary id op a ∈ pool) :
    pool.Has r σ a (a.real σ) ((unary id op a).Within .smooth σ) :=
  ⟨pool.operand_mem _ h a (by simp [operands]), rfl, fun hw => hw.1.of_smooth r⟩

theorem has_left {id : Nat} {op : BinaryOp} {a b : Expr α} (h : binary id op a b ∈ pool) :
    pool.Has r σ a (a.real σ) ((binary id op a b).Within .smooth σ) :=
  ⟨pool.operand_mem _ h a (by simp [operands]), rfl, fun hw => hw.1.of_smooth r⟩

theorem has_right {id : Nat} {op : BinaryOp} {a b : Expr α} (h : binary id op a b ∈ pool) :
    pool.Has r σ b (b.real σ) ((binary id op a b).Within .smooth σ) :=
  ⟨pool.operand_mem _ h b (by simp [operands]), rfl, fun hw => hw.2.1.of_smooth r⟩

/-- A node of a pool has its value, and is regular where it is smooth. -/
theorem has_self {e : Expr α} (h : e ∈ pool) : pool.Has r σ e (e.real σ) (e.Within .smooth σ) :=
  ⟨h, rfl, fun hw => hw.of_smooth r⟩

/-- Cosines, hyperbolic functions and sines have values everywhere. -/
theorem mkUnary_ensures_everywhere {op : UnaryOp} {a : Expr α} {u : ℝ} {p : Prop}
    (hop : ∀ r v, op.Regular r v) (ha : pool.Has r σ a u p) :
    pool.Ensures (mkUnary op a) fun after e => after.Has r σ e (op.real u) p :=
  (mkUnary_ensures ha).imp fun _ _ _ h => h.imp fun hp => ⟨hp, hop r u⟩

/-- One divided by an expression. -/
theorem mkReciprocal_ensures {d : Expr α} {v : ℝ} {p : Prop} (hd : pool.Has r σ d v p)
    (hp : p → v ≠ 0) :
    pool.Ensures (do mkDiv (← mkOne) d) fun after e => after.Has r σ e (1 / v) p := by
  refine (mkOne_ensures r σ).bind fun p₁ one hle₁ hone => ?_
  exact (mkDiv_ensures hone (hd.of_le hle₁)).imp fun _ _ _ h => h.imp fun h' => ⟨trivial, h', hp h'⟩

theorem arcPartial_ensures {a : Expr α} {u : ℝ} {p : Prop} (ha : pool.Has r σ a u p)
    (hp : p → -1 < u ∧ u < 1) :
    pool.Ensures (arcPartial a) fun after e => after.Has r σ e (1 / Real.sqrt (1 - u * u)) p := by
  have hpos : p → 0 < 1 - u * u := by
    intro h
    obtain ⟨h₁, h₂⟩ := hp h
    nlinarith
  rw [arcPartial]
  refine (mkMul_ensures ha ha).bind fun p₁ square _ hsquare => ?_
  refine (mkOne_ensures r σ).bind fun p₂ one hle₂ hone => ?_
  refine (mkSub_ensures hone (hsquare.of_le hle₂)).bind fun p₃ rest _ hrest => ?_
  refine (mkUnary_ensures hrest).bind fun p₄ root _ hroot => ?_
  refine mkReciprocal_ensures (hroot.imp fun h => ⟨⟨trivial, h, h⟩, ?_⟩) fun h =>
    (Real.sqrt_pos.mpr (hpos h)).ne'
  exact (show UnaryOp.sqrt.Regular .smooth (1 - u * u) from hpos h).of_smooth r

/-- **The partial derivative of a function has the slope as its value.** -/
theorem unaryPartial_ensures {id : Nat} {op : UnaryOp} {a : Expr α} (h : unary id op a ∈ pool) :
    pool.Ensures (unaryPartial op (unary id op a) a) fun after e =>
      after.Has r σ e (op.slope (a.real σ)) ((unary id op a).Within .smooth σ) := by
  have ha := has_operand (r := r) (σ := σ) h
  have hnode := has_self (r := r) (σ := σ) h
  have hop : (unary id op a).Within .smooth σ → op.Regular .smooth (a.real σ) := fun hw => hw.2
  -- one case for every function; what is divided by differs from zero where the node is smooth
  cases op with
  | neg =>
      exact (mkConst_ensures r σ _).imp fun _ _ _ hc =>
        (hc.congr ExactScalar.real_negOne).imp fun _ => trivial
  | sin => exact mkUnary_ensures_everywhere (fun r _ => by cases r <;> trivial) ha
  | cos =>
      refine (mkUnary_ensures_everywhere (fun r _ => by cases r <;> trivial) ha).bind
        fun p₁ s _ hs => ?_
      exact mkNeg_ensures hs
  | tan =>
      refine (mkUnary_ensures_everywhere (fun r _ => by cases r <;> trivial) ha).bind
        fun p₁ c _ hc => ?_
      refine (mkOne_ensures r σ).bind fun p₂ one hle₂ hone => ?_
      refine (mkMul_ensures (hc.of_le hle₂) (hc.of_le hle₂)).bind fun p₃ square hle₃ hsquare => ?_
      exact (mkDiv_ensures (hone.of_le hle₃) hsquare).imp fun _ _ _ hd =>
        hd.imp fun hw => ⟨trivial, ⟨hw, hw⟩, mul_ne_zero (hop hw) (hop hw)⟩
  | asin => exact arcPartial_ensures ha hop
  | acos =>
      refine (arcPartial_ensures ha hop).bind fun p₁ d _ hd => ?_
      exact mkNeg_ensures hd
  | atan =>
      have hpos : 1 + a.real σ * a.real σ ≠ 0 := by nlinarith [mul_self_nonneg (a.real σ)]
      refine (mkOne_ensures r σ).bind fun p₁ one hle₁ hone => ?_
      refine (mkOne_ensures r σ).bind fun p₂ one' hle₂ hone' => ?_
      have ha₂ := (ha.of_le hle₁).of_le hle₂
      refine (mkMul_ensures ha₂ ha₂).bind fun p₃ square hle₃ hsquare => ?_
      refine (mkAdd_ensures (hone'.of_le hle₃) hsquare).bind fun p₄ sum hle₄ hsum => ?_
      have hone₄ := ((hone.of_le hle₂).of_le hle₃).of_le hle₄
      exact (mkDiv_ensures hone₄ hsum).imp fun _ _ _ hd =>
        hd.imp fun hw => ⟨trivial, ⟨trivial, hw, hw⟩, hpos⟩
  | sinh => exact mkUnary_ensures_everywhere (fun r _ => by cases r <;> trivial) ha
  | cosh => exact mkUnary_ensures_everywhere (fun r _ => by cases r <;> trivial) ha
  | tanh =>
      refine (mkOne_ensures r σ).bind fun p₁ one hle₁ hone => ?_
      have hnode' := hnode.of_le hle₁
      refine (mkMul_ensures hnode' hnode').bind fun p₂ square hle₂ hsquare => ?_
      exact (mkSub_ensures (hone.of_le hle₂) hsquare).imp fun _ _ _ hs =>
        hs.imp fun hw => ⟨trivial, hw, hw⟩
  | exp => exact Pool.Ensures.pure hnode
  | log => exact mkReciprocal_ensures ha fun hw => ne_of_gt (hop hw)
  | sqrt =>
      refine (mkConst_ensures r σ _).bind fun p₁ half hle₁ hhalf => ?_
      refine (mkDiv_ensures (hhalf.congr ExactScalar.real_half) (hnode.of_le hle₁)).imp
        fun _ _ _ hd => (hd.imp fun hw => ⟨trivial, hw, (Real.sqrt_pos.mpr (hop hw)).ne'⟩).congr ?_
      rw [UnaryOp.slope, one_add_one_eq_two, div_div]
      rfl

/-- **The partial derivative by the left operand has the slope as its value.** -/
theorem leftPartial_ensures {id : Nat} {op : BinaryOp} {a b : Expr α}
    (h : binary id op a b ∈ pool) :
    pool.Ensures (leftPartial op a b) fun after e =>
      after.Has r σ e (op.slopeLeft (a.real σ) (b.real σ))
        ((binary id op a b).Within .smooth σ) := by
  have ha := has_left (r := r) (σ := σ) h
  have hb := has_right (r := r) (σ := σ) h
  cases op with
  | add => exact (mkOne_ensures r σ).imp fun _ _ _ hc => hc.imp fun _ => trivial
  | sub => exact (mkOne_ensures r σ).imp fun _ _ _ hc => hc.imp fun _ => trivial
  | mul => exact Pool.Ensures.pure hb
  | div => exact mkReciprocal_ensures hb fun hw => hw.2.2
  | pow =>
      -- the slope is `b * a ^ (b - 1)`, where a closed exponent stays closed
      have hone : pool.Ensures mkOne fun after e =>
          after.Has r σ e 1 True ∧ e.isClosed = true := (mkOne_ensures r σ).and rfl
      refine hone.bind fun p₁ one hle₁ ⟨hone, hclosed⟩ => ?_
      have hless := (mkSub_ensures (hb.of_le hle₁) hone).and
        (Q := fun e => b.isClosed = true → e.isClosed = true)
        fun hbc => isClosed_iff_over.mpr (over_mkSub (isClosed_iff_over.mp hbc)
          (isClosed_iff_over.mp hclosed) p₁.next)
      refine hless.bind fun p₂ less hle₂ ⟨hless, hlessClosed⟩ => ?_
      refine (mkBinary_ensures ((ha.of_le hle₁).of_le hle₂) hless).bind fun p₃ power hle₃
        hpower => ?_
      have hb₃ := ((hb.of_le hle₁).of_le hle₂).of_le hle₃
      refine (mkMul_ensures hb₃ hpower).imp fun _ _ _ hm => hm.imp fun hw => ?_
      have hreg :
          BinaryOp.pow.Regular .smooth (less.isClosed = true) (a.real σ) (b.real σ - 1) := by
        rcases hw.2.2 with hpos | ⟨hne, hbc, n, hn⟩
        · exact Or.inl hpos
        · exact Or.inr ⟨hne, hlessClosed hbc, n - 1, by rw [hn]; push_cast; rfl⟩
      exact ⟨hw, hw, ⟨hw, trivial⟩, hreg.of_smooth r⟩

/-- **The partial derivative by the right operand has the slope as its value.** That of a power is
regular where the base is positive. -/
theorem rightPartial_ensures {id : Nat} {op : BinaryOp} {a b : Expr α}
    (h : binary id op a b ∈ pool) :
    pool.Ensures (rightPartial op (binary id op a b) a b) fun after e =>
      after.Has r σ e (op.slopeRight (a.real σ) (b.real σ))
        ((binary id op a b).Within .smooth σ ∧ (op = .pow → 0 < a.real σ)) := by
  have ha := (has_left (r := r) (σ := σ) h).imp (And.left (b := op = .pow → 0 < a.real σ))
  have hb := (has_right (r := r) (σ := σ) h).imp (And.left (b := op = .pow → 0 < a.real σ))
  have hnode := (has_self (r := r) (σ := σ) h).imp (And.left (b := op = .pow → 0 < a.real σ))
  cases op with
  | add => exact (mkOne_ensures r σ).imp fun _ _ _ hc => hc.imp fun _ => trivial
  | sub =>
      exact (mkConst_ensures r σ _).imp fun _ _ _ hc =>
        (hc.congr ExactScalar.real_negOne).imp fun _ => trivial
  | mul => exact Pool.Ensures.pure ha
  | div =>
      refine (mkDiv_ensures hnode hb).bind fun p₁ d _ hd => ?_
      exact mkNeg_ensures (hd.imp fun hw => ⟨hw, hw, hw.1.2.2⟩)
  | pow =>
      refine (mkUnary_ensures ha).bind fun p₁ l hle₁ hl => ?_
      refine (mkMul_ensures (hnode.of_le hle₁) hl).imp fun _ _ _ hm => hm.imp fun hw => ?_
      have hlog : UnaryOp.log.Regular .smooth (a.real σ) := hw.2 rfl
      exact ⟨hw, hw, hlog.of_smooth r⟩

end Expr

end ExplicitOde
