import ExplicitOde.Proofs.Expr.Simplify

/-!
# Simplification refines what was asked for

`WrittenOut` is a run of the constructors of expressions in which every result stands beside the
operations that were asked for, as a plain tree: nothing in it is folded, shared or left out.

**Where a plain tree has a value, the expression that was made has the same**:
`WrittenOut.exactValue_eq`. The converse does not hold, since a factor of zero or a numerator of
zero hides what it stands beside. So simplification can only add points.
-/

namespace ExplicitOde

namespace Expr

variable {α : Type}

/-- A run of the constructors: the least identity not handed out, and what was made, each beside the
plain tree that was asked for. Other runs may take identities at any time. -/
inductive WrittenOut [Scalar α] : Nat → List (Expr α × Expr α) → Prop where
  | start (next : Nat) : WrittenOut next []
  | elsewhere {next later : Nat} {made : List (Expr α × Expr α)} : WrittenOut next made →
      next ≤ later → WrittenOut later made
  | symbol {next : Nat} {made : List (Expr α × Expr α)} (name : String) : WrittenOut next made →
      WrittenOut (mkSymbol name next : Expr α × Nat).2
        (((mkSymbol name next).1, .symbol next name) :: made)
  | const {next : Nat} {made : List (Expr α × Expr α)} (value : α) : WrittenOut next made →
      WrittenOut (mkConst value next).2 (((mkConst value next).1, .const next value) :: made)
  | unary {next : Nat} {made : List (Expr α × Expr α)} (op : UnaryOp) {a plain : Expr α} :
      WrittenOut next made → (a, plain) ∈ made →
      WrittenOut (mkUnary op a next).2 (((mkUnary op a next).1, .unary next op plain) :: made)
  | binary {next : Nat} {made : List (Expr α × Expr α)} (op : BinaryOp)
      {a plain b plain' : Expr α} :
      WrittenOut next made → (a, plain) ∈ made → (b, plain') ∈ made →
      WrittenOut (mkBinary op a b next).2
        (((mkBinary op a b next).1, .binary next op plain plain') :: made)

namespace WrittenOut

variable [ExactScalar α] {next : Nat} {made : List (Expr α × Expr α)}

/-- What is made has the real value of its plain tree, and is defined where the tree is. -/
theorem exists_has (h : WrittenOut next made) (σ : Nat → ℝ) : ∃ pool : Pool α,
    pool.next = next ∧
      ∀ p ∈ made, pool.Has .defined σ p.1 (p.2.real σ) (p.2.Within .defined σ) := by
  -- what is said of a result stays true while the pool grows
  have hmono : ∀ {pool after : Pool α} {p : Expr α × Expr α}, pool ≤ after →
      pool.Has .defined σ p.1 (p.2.real σ) (p.2.Within .defined σ) →
      after.Has .defined σ p.1 (p.2.real σ) (p.2.Within .defined σ) :=
    fun hle hp => hp.of_le hle
  induction h with
  | start next => exact ⟨.empty next, rfl, by simp⟩
  | elsewhere _ hlater ih =>
      obtain ⟨pool, rfl, hmade⟩ := ih
      exact ⟨pool.later hlater, rfl, fun p hp => hmono (pool.le_later hlater) (hmade p hp)⟩
  | symbol name _ ih =>
      obtain ⟨pool, rfl, hmade⟩ := ih
      have hnew : pool.Ensures (mkSymbol name) fun after e =>
          after.Has .defined σ e (σ pool.next) True :=
        ⟨pool.growSymbol name, Pool.le_grow _ _, rfl, Pool.mem_grow _ _, rfl, fun _ => trivial⟩
      exact hnew.exists_cons (fun e => (e, Expr.symbol pool.next name)) hmono hmade
  | const value _ ih =>
      obtain ⟨pool, rfl, hmade⟩ := ih
      exact (mkConst_ensures .defined σ value).exists_cons
        (fun e => (e, Expr.const pool.next value)) hmono hmade
  | @unary _ _ op a plain _ ha ih =>
      obtain ⟨pool, rfl, hmade⟩ := ih
      have hnew : pool.Ensures (mkUnary op a) fun after e => after.Has .defined σ e
          ((Expr.unary pool.next op plain).real σ)
          ((Expr.unary pool.next op plain).Within .defined σ) :=
        mkUnary_ensures (hmade _ ha)
      exact hnew.exists_cons (fun e => (e, Expr.unary pool.next op plain)) hmono hmade
  | @binary _ _ op a plain b plain' _ ha hb ih =>
      obtain ⟨pool, rfl, hmade⟩ := ih
      -- whether an operation is defined does not hang on which exponents are closed
      have hnew : pool.Ensures (mkBinary op a b) fun after e => after.Has .defined σ e
          ((Expr.binary pool.next op plain plain').real σ)
          ((Expr.binary pool.next op plain plain').Within .defined σ) := by
        refine (mkBinary_ensures (hmade _ ha) (hmade _ hb)).imp fun _ _ _ he => he.imp ?_
        rintro ⟨hwithin, hwithin', hop⟩
        exact ⟨hwithin, hwithin', (op.regular_defined_congr _ _ _ _).mp hop⟩
      exact hnew.exists_cons (fun e => (e, Expr.binary pool.next op plain plain')) hmono hmade

/-- **Where a plain tree has a value, the expression that was made has the same value.** -/
theorem exactValue_eq (h : WrittenOut next made) {e plain : Expr α} (he : (e, plain) ∈ made)
    {σ : Nat → ℝ} {v : ℝ} (hv : plain.exactValue σ = some v) : e.exactValue σ = some v := by
  obtain ⟨pool, -, hmade⟩ := h.exists_has σ
  obtain ⟨hwithin, hreal⟩ := exactValue_eq_some_iff.mp hv
  have hhas := hmade (e, plain) he
  exact exactValue_eq_some_iff.mpr ⟨hhas.within hwithin, hhas.real.trans hreal⟩

/-- In the sum of `x - x` and `x` the difference is folded and the sum left out, so that `x` itself
is made. -/
theorem exactValue_eq_sum :
    ∃ made : List (Expr ℚ × Expr ℚ), ∃ plain : Expr ℚ,
      plain = .binary 2 .add (.binary 1 .sub (.symbol 0 "x") (.symbol 0 "x")) (.symbol 0 "x") ∧
        WrittenOut 2 made ∧ (.symbol 0 "x", plain) ∈ made ∧
        plain.exactValue (fun _ => 5) = some 5 ∧
        (Expr.symbol 0 "x" : Expr ℚ).exactValue (fun _ => 5) = some 5 := by
  have hx : WrittenOut 1 [((.symbol 0 "x" : Expr ℚ), .symbol 0 "x")] := (start 0).symbol "x"
  have hdifference := hx.binary .sub List.mem_cons_self List.mem_cons_self
  have hsum := hdifference.binary .add List.mem_cons_self
    (List.mem_cons_of_mem _ List.mem_cons_self)
  have hvalue : (Expr.binary 2 .add (.binary 1 .sub (.symbol 0 "x") (.symbol 0 "x"))
      (.symbol 0 "x") : Expr ℚ).exactValue (fun _ => 5) = some 5 := by
    refine exactValue_eq_some_iff.mpr ⟨by simp [Within, BinaryOp.Regular], ?_⟩
    norm_num [BinaryOp.real]
  exact ⟨_, _, rfl, hsum, List.mem_cons_self, hvalue, exactValue_eq hsum List.mem_cons_self hvalue⟩

end WrittenOut

end Expr

end ExplicitOde
