import ExplicitOde.Derivative.Forward
import ExplicitOde.Proofs.Derivative.Directional
import ExplicitOde.Proofs.Derivative.Partial
import ExplicitOde.Proofs.Expr.Order

/-!
# Forward derivatives are directional derivatives

The table of tangents is filled in evaluation order, and what it holds for a node is an expression
whose value is the rate of the node. Two properties are carried from node to node.

**Rates.** The tangent of a node has the rate of the node as its value, and is regular where the
node is smooth.

**Zeros.** The tangent of a closed node is the constant zero. So the partial derivative of a power
by a closed exponent, a logarithm of a base that may be negative, is never built.
-/

namespace ExplicitOde

open ExplicitOde.Expr

variable {α : Type} [ExactScalar α] {r : Regularity} {σ v : Nat → ℝ} {pool : Pool α}
  {direction table : ExprTable α}

/-- An expression that is a tangent of a node: its value is the rate of the node. -/
structure IsTangent (pool : Pool α) (r : Regularity) (σ v : Nat → ℝ) (e t : Expr α) : Prop where
  has : pool.Has r σ t (e.directional σ v) (e.Within .smooth σ)
  /-- Closed nodes have the constant zero. -/
  zero : e.isClosed = true → t.isZero = true

theorem IsTangent.of_le {after : Pool α} {e t : Expr α} (h : IsTangent pool r σ v e t)
    (hle : pool ≤ after) : IsTangent after r σ v e t :=
  ⟨h.has.of_le hle, h.zero⟩

/-- A table that has a tangent for every node of a list. -/
def HasTangents (pool : Pool α) (r : Regularity) (σ v : Nat → ℝ) (es : List (Expr α))
    (table : ExprTable α) : Prop :=
  ∀ e ∈ es, ∃ t, table[e.id]? = some t ∧ IsTangent pool r σ v e t

/-- A table of expressions that have the values of `f`, and are regular where `ok` holds. An absent
entry stands for zero. -/
structure Pool.HasTable (pool : Pool α) (r : Regularity) (σ : Nat → ℝ) (table : ExprTable α)
    (f : Nat → ℝ) (ok : Nat → Prop) : Prop where
  some : ∀ id t, table[id]? = some t → pool.Has r σ t (f id) (ok id)
  none : ∀ id, table[id]? = none → f id = 0

theorem Pool.HasTable.of_le {after : Pool α} {f : Nat → ℝ} {ok : Nat → Prop}
    (h : pool.HasTable r σ table f ok) (hle : pool ≤ after) : after.HasTable r σ table f ok :=
  ⟨fun id t ht => (h.some id t ht).of_le hle, h.none⟩

theorem isZero_mkZero (n : Nat) : (mkZero n : Expr α × Nat).1.isZero = true :=
  (ExactScalar.equal_iff _ _).mpr rfl

/-! ## One node -/

/-- The contribution of an operand is the partial derivative times its tangent. -/
theorem addTangent_ensures {a t sum : Expr α} {part : Build (Expr α)} {x p d : ℝ} {ok : Prop}
    (ht : table[a.id]? = some t) (hd : pool.Has r σ t d ok) (hsum : pool.Has r σ sum x ok)
    (hpart : pool.Ensures part fun after e => after.Has r σ e p (ok ∧ t.isZero = false)) :
    pool.Ensures (addTangent table sum (a, part)) fun after e =>
      after.Has r σ e (x + p * d) ok := by
  rw [addTangent, ht]
  dsimp only
  split
  · rename_i hzero
    have hd0 : d = 0 := by rw [← hd.real, real_of_isZero hzero]
    exact Pool.Ensures.pure (hsum.congr (by rw [hd0, mul_zero, add_zero]))
  · rename_i hzero
    rw [Bool.not_eq_true] at hzero
    refine hpart.bind fun p₁ e hle₁ he => ?_
    refine (mkMul_ensures he (hd.of_le hle₁)).bind fun p₂ prod hle₂ hprod => ?_
    refine (mkAdd_ensures ((hsum.of_le hle₁).of_le hle₂) hprod).imp fun _ _ _ h => ?_
    exact h.imp fun hok => ⟨hok, ⟨hok, hzero⟩, hok⟩

/-- Operands with tangent zero are passed over. -/
theorem addTangent_of_isZero {a t sum : Expr α} {part : Build (Expr α)}
    (ht : table[a.id]? = some t) (hzero : t.isZero = true) :
    addTangent table sum (a, part) = pure sum := by
  simp only [addTangent, ht, hzero, if_true]

theorem tangentOf_unary {id : Nat} {op : UnaryOp} {a : Expr α} :
    tangentOf direction table (unary id op a) = (do
      addTangent table (← mkZero) (a, unaryPartial op (unary id op a) a)) := by
  simp only [tangentOf, partials, List.foldlM_cons, List.foldlM_nil, bind_pure]

theorem tangentOf_binary {id : Nat} {op : BinaryOp} {a b : Expr α} :
    tangentOf direction table (binary id op a b) = (do
      let first ← addTangent table (← mkZero) (a, leftPartial op a b)
      addTangent table first (b, rightPartial op (binary id op a b) a b)) := by
  simp only [tangentOf, partials, List.foldlM_cons, List.foldlM_nil, bind_pure]

/-- Where a power is smooth and its exponent changes, the base is positive. -/
theorem base_pos_of_not_isZero {id : Nat} {op : BinaryOp} {a b t : Expr α}
    (hb : IsTangent pool r σ v b t) (hw : (binary id op a b).Within .smooth σ)
    (ht : t.isZero = false) (hop : op = .pow) : 0 < a.real σ := by
  subst hop
  refine hw.2.2.resolve_right fun h => ?_
  rw [hb.zero h.2.1] at ht
  exact Bool.noConfusion ht

/-- **The tangent of a node has the rate of the node as its value.** -/
theorem tangentOf_ensures {e : Expr α} (he : e ∈ pool)
    (hdir : pool.HasTable r σ direction v fun _ => True)
    (htable : HasTangents pool r σ v e.operands table) :
    pool.Ensures (tangentOf direction table e) fun after t =>
      after.Has r σ t (e.directional σ v) (e.Within .smooth σ) := by
  cases e with
  | const id c => exact (mkZero_ensures r σ).imp fun _ _ _ h => h.imp fun _ => trivial
  | symbol id name =>
      rw [tangentOf]
      cases hid : direction[id]? with
      | some t => exact Pool.Ensures.pure ((hdir.some id t hid).imp fun _ => trivial)
      | none =>
          exact (mkZero_ensures r σ).imp fun _ _ _ h =>
            (h.congr (hdir.none id hid).symm).imp fun _ => trivial
  | unary id op a =>
      obtain ⟨t, ht, hta⟩ := htable a (by simp [operands])
      rw [tangentOf_unary]
      refine (mkZero_ensures r σ).bind fun p₁ zero hle₁ hzero => ?_
      have hd : p₁.Has r σ t (a.directional σ v) ((unary id op a).Within .smooth σ) :=
        (hta.has.of_le hle₁).imp And.left
      have hpart := (unaryPartial_ensures (r := r) (σ := σ) (Pool.mem_of_le hle₁ he)).imp
        fun _ _ _ h => h.imp (And.left (b := t.isZero = false))
      refine (addTangent_ensures ht hd (hzero.imp fun _ => trivial) hpart).imp fun _ _ _ h => ?_
      exact h.congr (by rw [zero_add, directional])
  | binary id op a b =>
      obtain ⟨s, hs, hsa⟩ := htable a (by simp [operands])
      obtain ⟨t, ht, htb⟩ := htable b (by simp [operands])
      rw [tangentOf_binary]
      refine (mkZero_ensures r σ).bind fun p₁ zero hle₁ hzero => ?_
      have hda : p₁.Has r σ s (a.directional σ v) ((binary id op a b).Within .smooth σ) :=
        (hsa.has.of_le hle₁).imp And.left
      have hleft := (leftPartial_ensures (r := r) (σ := σ) (Pool.mem_of_le hle₁ he)).imp
        fun _ _ _ h => h.imp (And.left (b := s.isZero = false))
      refine (addTangent_ensures hs hda (hzero.imp fun _ => trivial) hleft).bind
        fun p₂ first hle₂ hfirst => ?_
      have hle := Pool.le_trans hle₁ hle₂
      have hdb : p₂.Has r σ t (b.directional σ v) ((binary id op a b).Within .smooth σ) :=
        (htb.has.of_le hle).imp fun hw => hw.2.1
      -- by the exponent of a power there is a derivative where the base is positive only
      have hright := (rightPartial_ensures (r := r) (σ := σ) (Pool.mem_of_le hle he)).imp
        (Q := fun after e => after.Has r σ e (op.slopeRight (a.real σ) (b.real σ))
          ((binary id op a b).Within .smooth σ ∧ t.isZero = false))
        fun _ _ _ h => h.imp fun hw => ⟨hw.1, base_pos_of_not_isZero htb hw.1 hw.2⟩
      refine (addTangent_ensures ht hdb hfirst hright).imp fun _ _ _ h => ?_
      exact h.congr (by rw [zero_add, directional])

/-- **The tangent of a closed node is the constant zero.** -/
theorem isZero_tangentOf {e : Expr α} (hclosed : e.isClosed = true)
    (htable : HasTangents pool r σ v e.operands table) (n : Nat) :
    (tangentOf direction table e n).1.isZero = true := by
  cases e with
  | const id c => exact isZero_mkZero n
  | symbol id name => simp [isClosed] at hclosed
  | unary id op a =>
      obtain ⟨t, ht, hta⟩ := htable a (by simp [operands])
      rw [tangentOf_unary]
      simp only [addTangent_of_isZero ht (hta.zero hclosed), bind_pure]
      exact isZero_mkZero n
  | binary id op a b =>
      simp only [isClosed, Bool.and_eq_true] at hclosed
      obtain ⟨s, hs, hsa⟩ := htable a (by simp [operands])
      obtain ⟨t, ht, htb⟩ := htable b (by simp [operands])
      rw [tangentOf_binary]
      simp only [addTangent_of_isZero hs (hsa.zero hclosed.1),
        addTangent_of_isZero ht (htb.zero hclosed.2), bind_pure]
      exact isZero_mkZero n

/-! ## All nodes -/

omit [ExactScalar α] in
/-- A new node has the new entry, and the others keep theirs. -/
theorem forall_mem_snoc_insert {Q : Expr α → Expr α → Prop} {es : List (Expr α)} {e t : Expr α}
    (hnew : ∀ x ∈ es, x.id ≠ e.id) (h : ∀ x ∈ es, ∃ s, table[x.id]? = some s ∧ Q x s)
    (ht : Q e t) : ∀ x ∈ es ++ [e], ∃ s, (table.insert e.id t)[x.id]? = some s ∧ Q x s := by
  intro x hx
  rw [List.mem_append, List.mem_singleton] at hx
  rcases hx with hx | rfl
  · obtain ⟨s, hs, hsx⟩ := h x hx
    refine ⟨s, ?_, hsx⟩
    rw [Std.HashMap.getElem?_insert, if_neg, hs]
    simpa using (hnew x hx).symm
  · exact ⟨t, Std.HashMap.getElem?_insert_self, ht⟩

/-- **The table has a tangent for every node of the order.** -/
theorem tangentTable_ensures {es : List (Expr α)} (hord : Ordered es) (hes : ∀ e ∈ es, e ∈ pool)
    (hdir : pool.HasTable r σ direction v fun _ => True) :
    pool.Ensures (tangentTable direction es) fun after => HasTangents after r σ v es := by
  induction hord with
  | nil => exact Pool.Ensures.pure fun e he => absurd he List.not_mem_nil
  | @snoc es e hord hops hnew ih =>
      have hes' : ∀ x ∈ es, x ∈ pool := fun x hx => hes x (List.mem_append_left _ hx)
      rw [tangentTable, List.foldlM_append]
      refine (ih hes').bind fun p₁ table hle₁ htable => ?_
      rw [List.foldlM_cons]
      simp only [List.foldlM_nil, bind_pure]
      have he : e ∈ p₁ := Pool.mem_of_le hle₁ (hes e (by simp))
      have hoperands : HasTangents p₁ r σ v e.operands table := fun a ha => htable a (hops a ha)
      have htangent := (tangentOf_ensures he (hdir.of_le hle₁) hoperands).and
        (Q := fun t => e.isClosed = true → t.isZero = true)
        fun hclosed => isZero_tangentOf hclosed hoperands p₁.next
      refine htangent.bind fun p₂ t hle₂ ⟨ht, hzero⟩ => Pool.Ensures.pure ?_
      refine forall_mem_snoc_insert hnew (fun x hx => ?_) ⟨ht, hzero⟩
      obtain ⟨s, hs, hsx⟩ := htable x hx
      exact ⟨s, hs, hsx.of_le hle₂⟩

/-- **The tangents of roots have their rates as values.** -/
theorem tangents_ensures {roots : List (Expr α)} (hroots : ∀ e ∈ roots, e ∈ pool)
    (hdir : pool.HasTable r σ direction v fun _ => True) :
    pool.Ensures (tangents (evaluationOrder roots) roots direction) fun after =>
      List.Forall₂ (IsTangent after r σ v) roots := by
  rw [tangents]
  refine (tangentTable_ensures (ordered_evaluationOrder hroots)
    (fun _ he => mem_of_mem_evaluationOrder hroots he) hdir).bind fun p₁ table _ htable => ?_
  refine Pool.Ensures.mapM (fun hle h => h.of_le hle) fun after hle root hroot => ?_
  obtain ⟨t, ht, hroot'⟩ :=
    htable root ((mem_evaluationOrder hroots root).mpr ⟨root, hroot, .self root⟩)
  rw [rootTangent, ht]
  exact Pool.Ensures.pure (hroot'.of_le hle)

end ExplicitOde
