import ExplicitOde.Derivative.Reverse
import ExplicitOde.Proofs.Derivative.Forward

/-!
# Reverse derivatives carry weights to the symbols

Reverse mode distributes weights over the nodes and passes them down. What it keeps is one sum: over
the nodes still to be visited, the weight of the node times its derivative, and in addition the
weight that the symbol has been given. A visit takes the weight of a node away from the sum and adds
the same amount through its operands, by the chain rule; so what the symbol has in the end is the
sum over the roots.

**Order.** Users come before operands, so no node gets weight after its visit.

**Leaks.** A logarithm of a negative base may be in the weight of a closed exponent. The weights of
closed nodes are passed to closed nodes only, and constants do not hand them on, so none of it
reaches a symbol.
-/

namespace ExplicitOde

open ExplicitOde.Expr

variable {α : Type} [ExactScalar α] {r : Regularity} {σ : Nat → ℝ} {pool : Pool α}
  {table : ExprTable α} {f g : Nat → ℝ} {ok : Nat → Prop}

/-- The identity is none of a closed node. -/
def Pool.Open (pool : Pool α) (id : Nat) : Prop :=
  ∀ e ∈ pool, e.id = id → e.isClosed = false

omit [ExactScalar α] in
theorem Pool.open_id {e : Expr α} (he : e ∈ pool) : pool.Open e.id ↔ e.isClosed = false := by
  constructor
  · intro h
    exact h e he rfl
  · intro h x hx hid
    rw [pool.eq_of_id x hx e he hid]
    exact h

/-! ## Adding weight -/

theorem hasTable_empty : pool.HasTable r σ (∅ : ExprTable α) 0 ok :=
  ⟨fun id t ht => by simp at ht, fun _ _ => rfl⟩

/-- The entry of a node becomes the sum of what it was and an amount. -/
theorem insertSum_ensures {id : Nat} {sofar amount : Expr α} {x : ℝ}
    (hf : pool.HasTable r σ table f ok) (hsofar : pool.Has r σ sofar (f id) (ok id))
    (hx : pool.Has r σ amount x (ok id)) :
    pool.Ensures (do return table.insert id (← mkAdd sofar amount)) fun after table' =>
      after.HasTable r σ table' (f + Pi.single id x) ok := by
  refine (mkAdd_ensures hsofar hx).bind fun p₁ sum hle₁ hsum => Pool.Ensures.pure ?_
  constructor
  · intro i t ht
    rw [Std.HashMap.getElem?_insert] at ht
    by_cases hi : id = i
    · subst hi
      rw [if_pos BEq.rfl] at ht
      injection ht with ht
      subst ht
      exact (hsum.congr (by simp)).imp fun h => ⟨h, h⟩
    · rw [if_neg (by simpa using hi)] at ht
      exact ((hf.of_le hle₁).some i t ht).congr (by simp [Ne.symm hi])
  · intro i hi
    rw [Std.HashMap.getElem?_insert] at hi
    by_cases hid : id = i
    · rw [if_pos (by simpa using hid)] at hi
      injection hi
    · rw [if_neg (by simpa using hid)] at hi
      simp [hf.none i hi, Ne.symm hid]

theorem addWeight_ensures {id : Nat} {amount : Expr α} {x : ℝ} (hf : pool.HasTable r σ table f ok)
    (hx : pool.Has r σ amount x (ok id)) :
    pool.Ensures (addWeight table id amount) fun after table' =>
      after.HasTable r σ table' (f + Pi.single id x) ok := by
  rw [addWeight]
  cases hid : table[id]? with
  | some weight =>
      dsimp only
      rw [pure_bind]
      exact insertSum_ensures hf (hf.some id weight hid) hx
  | none =>
      refine (mkZero_ensures r σ).bind fun p₁ zero hle₁ hzero => ?_
      refine insertSum_ensures (hf.of_le hle₁) ?_ (hx.of_le hle₁)
      exact (hzero.congr (hf.none id hid).symm).imp fun _ => trivial

/-- The weights that the roots begin with. -/
noncomputable def rootShares (σ : Nat → ℝ) (seeded : List (Expr α × Expr α)) : Nat → ℝ :=
  (seeded.map fun p => Pi.single p.1.id (p.2.real σ)).sum

theorem rootWeights_ensures : ∀ {seeded : List (Expr α × Expr α)} {pool : Pool α}
    {table : ExprTable α} {f : Nat → ℝ}, pool.HasTable r σ table f ok →
    (∀ p ∈ seeded, pool.Has r σ p.2 (p.2.real σ) True) →
    pool.Ensures (seeded.foldlM (fun table (root, weight) =>
      if weight.isZero then pure table else addWeight table root.id weight) table)
      fun after table' => after.HasTable r σ table' (f + rootShares σ seeded) ok := by
  intro seeded
  induction seeded with
  | nil =>
      intro pool table f hf _
      exact Pool.Ensures.pure (by simpa [rootShares] using hf)
  | cons p seeded ih =>
      intro pool table f hf hseed
      have hp : pool.Has r σ p.2 (p.2.real σ) (ok p.1.id) :=
        (hseed p List.mem_cons_self).imp fun _ => trivial
      have hsum : f + rootShares σ (p :: seeded) =
          f + Pi.single p.1.id (p.2.real σ) + rootShares σ seeded := by
        rw [rootShares, List.map_cons, List.sum_cons, add_assoc, rootShares]
      rw [List.foldlM_cons, hsum]
      have hone : pool.Ensures (if p.2.isZero then pure table else addWeight table p.1.id p.2)
          fun after table' => after.HasTable r σ table' (f + Pi.single p.1.id (p.2.real σ)) ok := by
        split
        · -- a weight that is left out is zero
          rename_i hzero
          rw [real_of_isZero hzero, Pi.single_zero, add_zero]
          exact Pool.Ensures.pure hf
        · exact addWeight_ensures hf hp
      refine hone.bind fun p₁ table' hle₁ hf' => ih hf' fun q hq => ?_
      exact (hseed q (List.mem_cons_of_mem p hq)).of_le hle₁

/-! ## Passing weight on -/

/-- What the visit of a node of weight `u` adds to the weights of its operands. -/
noncomputable def passed (σ : Nat → ℝ) (u : ℝ) : Expr α → Nat → ℝ
  | const _ _ => 0
  | symbol _ _ => 0
  | unary _ op a => Pi.single a.id (u * op.slope (a.real σ))
  | binary _ op a b =>
    Pi.single a.id (u * op.slopeLeft (a.real σ) (b.real σ)) +
      Pi.single b.id (u * op.slopeRight (a.real σ) (b.real σ))

/-- What the visit of a node of weight `u` adds to the weights of the symbols. -/
noncomputable def settled (u : ℝ) : Expr α → Nat → ℝ
  | const _ _ => 0
  | symbol i _ => Pi.single i u
  | unary _ _ _ => 0
  | binary _ _ _ _ => 0

theorem passWeight_ensures {a weight : Expr α} {part : Build (Expr α)} {u d : ℝ} {p : Prop}
    (hf : pool.HasTable r σ table f ok) (hweight : pool.Has r σ weight u p)
    (hpart : pool.Ensures part fun after e => after.Has r σ e d (ok a.id)) (hok : ok a.id → p) :
    pool.Ensures (passWeight weight table (a, part)) fun after table' =>
      after.HasTable r σ table' (f + Pi.single a.id (u * d)) ok := by
  rw [passWeight]
  refine hpart.bind fun p₁ e hle₁ he => ?_
  refine (mkMul_ensures (hweight.of_le hle₁) he).bind fun p₂ amount hle₂ hamount => ?_
  exact addWeight_ensures ((hf.of_le hle₁).of_le hle₂) (hamount.imp fun h => ⟨hok h, h⟩)

section Operands

variable {pool₀ : Pool α} {weight : Expr α} {u : ℝ}

/-- The operand of an open node has weight to be answered for. -/
theorem passUnary_ensures {i : Nat} {op : UnaryOp} {a : Expr α} (hle : pool₀ ≤ pool)
    (he : unary i op a ∈ pool₀) (hsmooth : (unary i op a).Within .smooth σ)
    (hf : pool.HasTable r σ table f pool₀.Open) (hweight : pool.Has r σ weight u (pool₀.Open i)) :
    pool.Ensures ((unary i op a).partials.foldlM (passWeight weight) table) fun after table' =>
      after.HasTable r σ table' (f + passed σ u (unary i op a)) pool₀.Open := by
  have ha : a ∈ pool₀ := pool₀.operand_mem _ he a (by simp [operands])
  have hopen : pool₀.Open a.id → pool₀.Open i := by
    intro hopen
    exact (Pool.open_id he).mpr ((Pool.open_id ha).mp hopen)
  have hpart := (unaryPartial_ensures (r := r) (σ := σ) (Pool.mem_of_le hle he)).imp
    (Q := fun after e => after.Has r σ e (op.slope (a.real σ)) (pool₀.Open a.id))
    fun _ _ _ h => h.imp fun _ => hsmooth
  simp only [partials, List.foldlM_cons, List.foldlM_nil, bind_pure]
  exact passWeight_ensures hf hweight hpart hopen

/-- The weight of a node with two operands goes to one after the other. -/
theorem passBinary_ensures {i : Nat} {op : BinaryOp} {a b : Expr α} (hle : pool₀ ≤ pool)
    (he : binary i op a b ∈ pool₀) (hsmooth : (binary i op a b).Within .smooth σ)
    (hf : pool.HasTable r σ table f pool₀.Open) (hweight : pool.Has r σ weight u (pool₀.Open i)) :
    pool.Ensures ((binary i op a b).partials.foldlM (passWeight weight) table) fun after table' =>
      after.HasTable r σ table' (f + passed σ u (binary i op a b)) pool₀.Open := by
  have ha : a ∈ pool₀ := pool₀.operand_mem _ he a (by simp [operands])
  have hb : b ∈ pool₀ := pool₀.operand_mem _ he b (by simp [operands])
  have hopenLeft : pool₀.Open a.id → pool₀.Open i := by
    intro hopen
    refine (Pool.open_id he).mpr ?_
    rw [isClosed, (Pool.open_id ha).mp hopen, Bool.false_and]
  have hopenRight : pool₀.Open b.id → pool₀.Open i := by
    intro hopen
    refine (Pool.open_id he).mpr ?_
    rw [isClosed, (Pool.open_id hb).mp hopen, Bool.and_false]
  -- the exponent of a power changes, so its base is positive
  have hbase : pool₀.Open b.id → op = .pow → 0 < a.real σ := by
    rintro hopen rfl
    refine hsmooth.2.2.resolve_right fun hfixed => ?_
    rw [(Pool.open_id hb).mp hopen] at hfixed
    exact Bool.noConfusion hfixed.2.1
  have hleft := (leftPartial_ensures (r := r) (σ := σ) (Pool.mem_of_le hle he)).imp
    (Q := fun after e => after.Has r σ e (op.slopeLeft (a.real σ) (b.real σ)) (pool₀.Open a.id))
    fun _ _ _ h => h.imp fun _ => hsmooth
  simp only [partials, List.foldlM_cons, List.foldlM_nil, bind_pure]
  refine (passWeight_ensures hf hweight hleft hopenLeft).bind fun p₁ first hle₁ hfirst => ?_
  have hright := (rightPartial_ensures (r := r) (σ := σ)
    (Pool.mem_of_le hle₁ (Pool.mem_of_le hle he))).imp
    (Q := fun after e => after.Has r σ e (op.slopeRight (a.real σ) (b.real σ)) (pool₀.Open b.id))
    fun _ _ _ h => h.imp fun hopen => ⟨hsmooth, hbase hopen⟩
  rw [passed, ← add_assoc]
  exact passWeight_ensures hfirst (hweight.of_le hle₁) hright hopenRight

end Operands

/-- A table of weights of nodes, for which no closed node is answerable, and one of weights of
symbols. -/
structure Weighs (pool₀ pool : Pool α) (r : Regularity) (σ : Nat → ℝ) (weights : Weights α)
    (f g : Nat → ℝ) : Prop where
  nodes : pool.HasTable r σ weights.nodes f pool₀.Open
  symbols : pool.HasTable r σ weights.symbols g fun _ => True

/-- **A visit passes the weight of a node on by the chain rule.** -/
theorem visitWeight_ensures {pool₀ : Pool α} {weights : Weights α} {e : Expr α} (hle : pool₀ ≤ pool)
    (he : e ∈ pool₀) (hsmooth : e.Within .smooth σ) (h : Weighs pool₀ pool r σ weights f g) :
    pool.Ensures (visitWeight weights e) fun after weights' =>
      Weighs pool₀ after r σ weights' (f + passed σ (f e.id) e) (g + settled (f e.id) e) := by
  -- a weight of zero passes nothing on, like one that is absent
  have hnone : f e.id = 0 → Weighs pool₀ pool r σ weights (f + passed σ (f e.id) e)
      (g + settled (f e.id) e) := by
    intro h0
    rw [h0]
    cases e <;> simpa [passed, settled] using h
  unfold visitWeight
  cases hid : weights.nodes[e.id]? with
  | none => exact Pool.Ensures.pure (hnone (h.nodes.none e.id hid))
  | some weight =>
      have hweight := h.nodes.some e.id weight hid
      dsimp only
      split
      · rename_i hzero
        exact Pool.Ensures.pure (hnone (by rw [← hweight.real, real_of_isZero hzero]))
      cases e with
      | const i c => exact Pool.Ensures.pure (by simpa [passed, settled] using h)
      | symbol i name =>
          have hopen : pool₀.Open i := (Pool.open_id he).mpr rfl
          refine (addWeight_ensures h.symbols (hweight.imp fun _ => hopen)).bind
            fun p₁ symbols hle₁ hsymbols => Pool.Ensures.pure ⟨?_, hsymbols⟩
          simpa [passed] using h.nodes.of_le hle₁
      | unary i op a =>
          refine (passUnary_ensures hle he hsmooth h.nodes hweight).bind
            fun p₁ nodes hle₁ hnodes => Pool.Ensures.pure ⟨hnodes, ?_⟩
          simpa [settled] using h.symbols.of_le hle₁
      | binary i op a b =>
          refine (passBinary_ensures hle he hsmooth h.nodes hweight).bind
            fun p₁ nodes hle₁ hnodes => Pool.Ensures.pure ⟨hnodes, ?_⟩
          simpa [settled] using h.symbols.of_le hle₁

/-! ## All nodes -/

/-- The sum that is kept: weights of nodes times their derivatives by a symbol. -/
noncomputable def pending (σ : Nat → ℝ) (f : Nat → ℝ) (s : Nat) (es : List (Expr α)) : ℝ :=
  (es.map fun e => f e.id * e.directional σ (Pi.single s 1)).sum

theorem pending_add (f g : Nat → ℝ) (s : Nat) (es : List (Expr α)) :
    pending σ (f + g) s es = pending σ f s es + pending σ g s es := by
  simp only [pending, Pi.add_apply, add_mul, List.sum_map_add]

theorem pending_snoc (f : Nat → ℝ) (s : Nat) (es : List (Expr α)) (e : Expr α) :
    pending σ f s (es ++ [e]) =
      pending σ f s es + f e.id * e.directional σ (Pi.single s 1) := by
  simp [pending]

theorem pending_zero (s : Nat) (es : List (Expr α)) : pending σ 0 s es = 0 := by
  simp [pending]

/-- Weight of one node counts once. -/
theorem pending_single {es : List (Expr α)} (hord : Ordered es) {a : Expr α} (ha : a ∈ es) (u : ℝ)
    (s : Nat) :
    pending σ (Pi.single a.id u) s es = u * a.directional σ (Pi.single s 1) := by
  induction hord with
  | nil => simp at ha
  | @snoc es e hord _ hnew ih =>
      rw [pending_snoc]
      rw [List.mem_append, List.mem_singleton] at ha
      rcases ha with ha | rfl
      · rw [ih ha, Pi.single_eq_of_ne (hnew a ha).symm, zero_mul, add_zero]
      · have hrest : pending σ (Pi.single a.id u) s es = 0 := by
          refine List.sum_eq_zero fun x hx => ?_
          obtain ⟨e, he, rfl⟩ := List.mem_map.mp hx
          rw [Pi.single_eq_of_ne (hnew e he), zero_mul]
        rw [hrest, zero_add, Pi.single_eq_same]

/-- **What a visit passes on is what the node had.** -/
theorem pending_passed {es : List (Expr α)} (hord : Ordered es) {e : Expr α}
    (hops : ∀ a ∈ e.operands, a ∈ es) (u : ℝ) (s : Nat) :
    pending σ (passed σ u e) s es + settled u e s = u * e.directional σ (Pi.single s 1) := by
  cases e with
  | const i c => simp [passed, settled, pending_zero, directional]
  | symbol i name =>
      rw [passed, settled, pending_zero, zero_add, directional]
      by_cases hi : i = s
      · simp [hi]
      · simp [hi, Ne.symm hi]
  | unary i op a =>
      rw [passed, settled, pending_single hord (hops a (by simp [operands])), directional]
      simp [mul_assoc]
  | binary i op a b =>
      rw [passed, settled, pending_add, pending_single hord (hops a (by simp [operands])),
        pending_single hord (hops b (by simp [operands])), directional]
      simp [mul_assoc, mul_add]

/-- **The weight of a symbol in the end is the sum that was pending in the beginning.** -/
theorem visitAll_ensures {pool₀ : Pool α} {es : List (Expr α)} (hord : Ordered es)
    (hes : ∀ e ∈ es, e ∈ pool₀) (hsmooth : ∀ e ∈ es, e.Within .smooth σ) :
    ∀ {pool : Pool α} {weights : Weights α} {f g : Nat → ℝ}, pool₀ ≤ pool →
      Weighs pool₀ pool r σ weights f g →
      pool.Ensures (es.reverse.foldlM visitWeight weights) fun after weights' =>
        after.HasTable r σ weights'.symbols (fun s => g s + pending σ f s es) fun _ => True := by
  induction hord with
  | nil =>
      intro pool weights f g _ h
      exact Pool.Ensures.pure (by simpa [pending] using h.symbols)
  | @snoc es e hord hops _ ih =>
      intro pool weights f g hle h
      have he : e ∈ es ++ [e] := by simp
      rw [List.reverse_append, List.reverse_singleton, List.singleton_append, List.foldlM_cons]
      refine (visitWeight_ensures hle (hes e he) (hsmooth e he) h).bind
        fun p₁ weights' hle₁ h' => ?_
      refine (ih (fun x hx => hes x (List.mem_append_left _ hx))
        (fun x hx => hsmooth x (List.mem_append_left _ hx)) (Pool.le_trans hle hle₁) h').imp
        fun after final _ hfinal => ?_
      have hsum : (fun s => (g + settled (f e.id) e) s + pending σ (f + passed σ (f e.id) e) s es) =
          fun s => g s + pending σ f s (es ++ [e]) := by
        funext s
        rw [pending_snoc, pending_add, Pi.add_apply, ← pending_passed hord hops (f e.id) s]
        ring
      rwa [hsum] at hfinal

/-- What is pending at the roots is the sum of the derivatives of the roots, weighted. -/
theorem pending_rootShares {es : List (Expr α)} (hord : Ordered es)
    {seeded : List (Expr α × Expr α)} (hroots : ∀ p ∈ seeded, p.1 ∈ es) (s : Nat) :
    pending σ (rootShares σ seeded) s es =
      (seeded.map fun p => p.2.real σ * p.1.directional σ (Pi.single s 1)).sum := by
  induction seeded with
  | nil => exact pending_zero s es
  | cons p seeded ih =>
      have hsum : rootShares σ (p :: seeded) =
          Pi.single p.1.id (p.2.real σ) + rootShares σ seeded := by
        rw [rootShares, List.map_cons, List.sum_cons, rootShares]
      rw [hsum, pending_add, pending_single hord (hroots p List.mem_cons_self),
        ih fun q hq => hroots q (List.mem_cons_of_mem p hq), List.map_cons, List.sum_cons]

/-- What is below a smooth expression is smooth. -/
theorem within_of_reaches {e x : Expr α} (h : e.Within r σ) (hreach : e.Reaches x) :
    x.Within r σ := by
  induction hreach with
  | self => exact h
  | through hop _ ih => exact ih (h.operand hop)

/-- **The weight of every symbol is the weighted sum of the derivatives of the roots by it.** -/
theorem symbolWeights_ensures {roots seed : List (Expr α)} (hroots : ∀ e ∈ roots, e ∈ pool)
    (hsmooth : ∀ e ∈ roots, e.Within .smooth σ)
    (hseed : ∀ p ∈ roots.zip seed, pool.Has r σ p.2 (p.2.real σ) True) :
    pool.Ensures (symbolWeights (evaluationOrder roots) roots seed) fun after table =>
      after.HasTable r σ table
        (fun s => ((roots.zip seed).map fun p =>
          p.2.real σ * p.1.directional σ (Pi.single s 1)).sum) fun _ => True := by
  have hord := ordered_evaluationOrder hroots
  have hwithin : ∀ e ∈ evaluationOrder roots, e.Within .smooth σ := by
    intro e he
    obtain ⟨root, hroot, hreach⟩ := (mem_evaluationOrder hroots e).mp he
    exact within_of_reaches (hsmooth root hroot) hreach
  have hempty : pool.HasTable r σ (∅ : ExprTable α) 0 pool.Open := hasTable_empty
  rw [symbolWeights, rootWeights]
  refine (rootWeights_ensures hempty hseed).bind fun p₁ start hle₁ hstart => ?_
  have hweighs : Weighs pool p₁ r σ ⟨start, ∅⟩ (0 + rootShares σ (roots.zip seed)) 0 :=
    ⟨hstart, hasTable_empty⟩
  refine (visitAll_ensures hord (fun _ he => mem_of_mem_evaluationOrder hroots he) hwithin hle₁
    hweighs).bind fun p₂ final _ hfinal => Pool.Ensures.pure ?_
  have hlisted : ∀ p ∈ roots.zip seed, p.1 ∈ evaluationOrder roots := by
    intro p hp
    exact (mem_evaluationOrder hroots p.1).mpr ⟨p.1, (List.of_mem_zip hp).1, .self p.1⟩
  simpa only [zero_add, Pi.zero_apply, pending_rootShares hord hlisted] using hfinal

end ExplicitOde
