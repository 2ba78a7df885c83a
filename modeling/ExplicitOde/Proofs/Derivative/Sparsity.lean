import ExplicitOde.Proofs.Matrix.Success
import ExplicitOde.Scalar.Double

/-!
# Sparsity of derivatives

Which symbols an entry of a derivative has, and where it is the constant zero, follows from which
elements reach which symbols.

**Forward.** The tangent of a node has the symbols of the node, and of the tangents of symbols it
has those of the symbols below the node only. If all these tangents are the constant zero, so is the
tangent of the node: no partial derivative is built.

**Reverse.** A node has a weight only if there is a root above it whose weight is not zero, and its
weight is made of such roots and of their weights. What no such root reaches ends with the constant
zero.

A Jacobian matrix is a forward derivative whose seed has zeros off the diagonal, so where an element
does not reach a symbol it has the constant zero.
-/

namespace ExplicitOde

open ExplicitOde.Expr

variable {α : Type} [Scalar α] {pool : Pool α}

namespace Expr

/-- The expression is a constant, and its value is zero as new zeros are. -/
def IsZeroConstant (e : Expr α) : Prop := ∃ id, e = const id Scalar.zero

theorem always_mkZero : Always mkZero (IsZeroConstant (α := α)) := fun n => ⟨n, rfl⟩

/-- The constant zero is known to be zero, if zero is a number that is equal to itself. -/
theorem IsZeroConstant.isZero (hzero : Scalar.equal (Scalar.zero : α) Scalar.zero = true)
    {e : Expr α} (h : e.IsZeroConstant) : e.isZero = true := by
  obtain ⟨id, rfl⟩ := h
  exact hzero

/-- Partial derivatives are by operands. -/
theorem mem_operands_of_partials {e : Expr α} : ∀ p ∈ e.partials, p.1 ∈ e.operands := by
  cases e with
  | const | symbol => exact fun p hp => absurd hp List.not_mem_nil
  | unary => simp [partials, operands]
  | binary => simp [partials, operands]

end Expr

/-! ## Tangents -/

/-- What a tangent of a node is made of. -/
structure IsSparseTangent (direction : ExprTable α) (e t : Expr α) : Prop where
  isOver : t.Over fun s => e.Mentions s ∨
    ∃ i v, e.Mentions i ∧ direction[i]? = some v ∧ v.Mentions s
  zero : (∀ i v, e.Mentions i → direction[i]? = some v → v.IsZeroConstant) → t.IsZeroConstant

/-- A table that has a tangent for every node of a list, none of them made of more than it has to
be. -/
def HasSparseTangents (direction : ExprTable α) (es : List (Expr α)) (table : ExprTable α) : Prop :=
  ∀ e ∈ es, ∃ t, table[e.id]? = some t ∧ IsSparseTangent direction e t

variable {direction table : ExprTable α}

/-- Zero is a tangent that is made of nothing. -/
theorem mkZero_sparse (direction : ExprTable α) (e : Expr α) :
    Always mkZero (IsSparseTangent direction e) :=
  fun n => ⟨over_mkZero _ n, fun _ => always_mkZero n⟩

section Tangents

variable (hzero : Scalar.equal (Scalar.zero : α) Scalar.zero = true)

include hzero

/-- An operand contributes what it is made of, and one whose tangent is zero contributes nothing. -/
theorem addTangent_sparse {e sum : Expr α} {p : Expr α × Build (Expr α)} (hp : p ∈ e.partials)
    (htable : HasSparseTangents direction e.operands table)
    (hsum : IsSparseTangent direction e sum) :
    Always (addTangent table sum p) (IsSparseTangent direction e) := by
  have hop := mem_operands_of_partials p hp
  obtain ⟨t, ht, hsparse⟩ := htable p.1 hop
  have hbelow : ∀ {s}, p.1.Mentions s → e.Mentions s :=
    fun h => h.of_reaches (.through hop (.self _))
  simp only [addTangent, ht]
  split
  · exact Always.pure hsum
  · rename_i hnonzero
    have htangent : t.Over fun s => e.Mentions s ∨
        ∃ i v, e.Mentions i ∧ direction[i]? = some v ∧ v.Mentions s :=
      hsparse.isOver.imp fun s => Or.imp hbelow <| by
        rintro ⟨i, v, hi, hv⟩
        exact ⟨i, v, hbelow hi, hv⟩
    refine (over_partials (over_mentions e) p hp).bind fun part hpart => ?_
    refine (over_mkMul (hpart.imp fun _ => Or.inl) htangent).bind fun product hproduct => ?_
    refine (over_mkAdd hsum.isOver hproduct).imp fun result hresult => ⟨hresult, fun hall => ?_⟩
    have ht0 := hsparse.zero fun i v hi hv => hall i v (hbelow hi) hv
    exact absurd (ht0.isZero hzero) hnonzero

/-- **The tangent of a node is made of the node and of the tangents of the symbols below it.** -/
theorem tangentOf_sparse {e : Expr α} (htable : HasSparseTangents direction e.operands table) :
    Always (tangentOf direction table e) (IsSparseTangent direction e) := by
  cases e with
  | const => exact mkZero_sparse direction _
  | symbol id name =>
      rw [tangentOf]
      have hself := mentions_symbol (α := α) id name
      split
      · rename_i v hv
        exact Always.pure ⟨over_iff_mentions.mpr fun s hs => Or.inr ⟨id, v, hself, hv, hs⟩,
          fun hall => hall id v hself hv⟩
      · exact mkZero_sparse direction _
  | unary | binary =>
      exact (mkZero_sparse direction _).bind fun zero hsum =>
        Always.foldlM hsum fun sum hsum p hp => addTangent_sparse hzero hp htable hsum

/-- **The table has a tangent for every node of the order.** -/
theorem tangentTable_sparse {es : List (Expr α)} (hord : Ordered es) :
    Always (tangentTable direction es) (HasSparseTangents direction es) := by
  induction hord with
  | nil => exact fun _ e he => absurd he List.not_mem_nil
  | @snoc es e hord hops hnew ih =>
      rw [tangentTable, List.foldlM_append]
      refine ih.bind fun table htable => ?_
      rw [List.foldlM_cons]
      simp only [List.foldlM_nil, bind_pure]
      exact (tangentOf_sparse hzero fun a ha => htable a (hops a ha)).bind fun t ht =>
        Always.pure (forall_mem_snoc_insert hnew htable ht)

theorem tangents_sparse {roots : List (Expr α)} (hroots : ∀ e ∈ roots, e ∈ pool) :
    Always (tangents (evaluationOrder roots) roots direction)
      (List.Forall₂ (IsSparseTangent direction) roots) := by
  rw [tangents]
  refine (tangentTable_sparse hzero (ordered_evaluationOrder hroots)).bind fun table htable => ?_
  refine Always.forall₂_mapM fun root hroot => ?_
  obtain ⟨t, ht, hsparse⟩ :=
    htable root ((mem_evaluationOrder hroots root).mpr ⟨root, hroot, .self root⟩)
  rw [rootTangent, ht]
  exact Always.pure hsparse

end Tangents

/-! ## Weights -/

/-- The root passes weight to the node of an identity: it is above it, and its own weight is not
zero. The weight of a root stands beside it. -/
def Feeds (p : Expr α × Expr α) (i : Nat) : Prop :=
  p.2.isZero = false ∧ ∃ x, p.1.Reaches x ∧ x.id = i

/-- What the weight of the node of an identity is made of. -/
def IsFedBy (pairs : List (Expr α × Expr α)) (i : Nat) (w : Expr α) : Prop :=
  w.Over fun s => ∃ p ∈ pairs, Feeds p i ∧ (p.1.Mentions s ∨ p.2.Mentions s)

/-- A table that has weights only for what some root passes weight to, made of the roots that do. -/
def TableFed (pairs : List (Expr α × Expr α)) (table : ExprTable α) : Prop :=
  ∀ (i : Nat) (w : Expr α), table[i]? = some w → (∃ p ∈ pairs, Feeds p i) ∧ IsFedBy pairs i w

variable {pairs : List (Expr α × Expr α)} {p : Expr α × Expr α} {e a : Expr α}

/-- What passes weight to a node of the pool reaches it. -/
theorem Feeds.reaches (h : Feeds p e.id) (hp : p.1 ∈ pool) (he : e ∈ pool) : p.1.Reaches e := by
  obtain ⟨x, hreach, hid⟩ := h.2
  exact pool.eq_of_id x (pool.mem_of_reaches hp hreach) e he hid ▸ hreach

/-- What passes weight to a node passes it to the operands. -/
theorem Feeds.operand (h : Feeds p e.id) (hp : p.1 ∈ pool) (he : e ∈ pool) (ha : a ∈ e.operands) :
    Feeds p a.id :=
  ⟨h.1, a, (h.reaches hp he).operand ha, rfl⟩

theorem tableFed_empty : TableFed pairs (∅ : ExprTable α) := by
  intro i w hget
  simp at hget

theorem addWeight_fed (h : TableFed pairs table) {i : Nat} {amount : Expr α}
    (hfed : ∃ p ∈ pairs, Feeds p i) (hamount : IsFedBy pairs i amount) :
    Always (addWeight table i amount) (TableFed pairs) := by
  have hadd : ∀ sofar : Expr α, IsFedBy pairs i sofar →
      Always (do return table.insert i (← mkAdd sofar amount)) (TableFed pairs) :=
    fun sofar hsofar => (over_mkAdd hsofar hamount).bind fun sum hsum =>
      Always.pure (forall_getElem?_insert h ⟨hfed, hsum⟩)
  rw [addWeight]
  cases hget : table[i]? with
  | some weight => exact (Always.pure (h i weight hget).2).bind hadd
  | none => exact (over_mkZero _).bind hadd

/-- The roots begin with their own weights. -/
theorem rootWeights_fed (roots seed : List (Expr α)) :
    Always (rootWeights roots seed) (TableFed (roots.zip seed)) := by
  refine Always.foldlM tableFed_empty fun table htable p hp => ?_
  obtain ⟨root, weight⟩ := p
  dsimp only
  split
  · exact Always.pure htable
  · rename_i hnonzero
    have hfeeds : Feeds (root, weight) root.id := ⟨by simpa using hnonzero, root, .self root, rfl⟩
    exact addWeight_fed htable ⟨_, hp, hfeeds⟩
      (over_iff_mentions.mpr fun s hs => ⟨_, hp, hfeeds, Or.inr hs⟩)

/-- The weights of nodes and those of symbols are made of roots that reach them. -/
def WeightsFed (pairs : List (Expr α × Expr α)) (weights : Weights α) : Prop :=
  TableFed pairs weights.nodes ∧ TableFed pairs weights.symbols

/-- An operand gets its weight from the roots above the node. -/
theorem passWeight_fed (hpairs : ∀ p ∈ pairs, p.1 ∈ pool) (he : e ∈ pool) {weight : Expr α}
    (hweight : (∃ p ∈ pairs, Feeds p e.id) ∧ IsFedBy pairs e.id weight)
    (htable : TableFed pairs table) {q : Expr α × Build (Expr α)} (hq : q ∈ e.partials) :
    Always (passWeight weight table q) (TableFed pairs) := by
  obtain ⟨⟨p, hp, hfeeds⟩, hfed⟩ := hweight
  have hop := mem_operands_of_partials q hq
  have hfeeds' : Feeds p q.1.id := hfeeds.operand (hpairs p hp) he hop
  have hfed' : IsFedBy pairs q.1.id weight := hfed.imp fun s ⟨p, hp, hfeeds, hs⟩ =>
    ⟨p, hp, hfeeds.operand (hpairs p hp) he hop, hs⟩
  rw [passWeight]
  refine (over_partials (over_mentions e) q hq).bind fun part hpart => ?_
  -- the root that the weight comes from has the symbols of the partial derivative
  have hpart' : IsFedBy pairs q.1.id part := hpart.imp fun s hs =>
    ⟨p, hp, hfeeds', Or.inl (hs.of_reaches (hfeeds.reaches (hpairs p hp) he))⟩
  exact (over_mkMul hfed' hpart').bind fun amount hamount =>
    addWeight_fed htable ⟨p, hp, hfeeds'⟩ hamount

/-- **A visit passes weight on to what the roots above the node reach.** -/
theorem visitWeight_fed (hpairs : ∀ p ∈ pairs, p.1 ∈ pool) (he : e ∈ pool) {weights : Weights α}
    (h : WeightsFed pairs weights) : Always (visitWeight weights e) (WeightsFed pairs) := by
  rw [visitWeight]
  split
  · exact Always.pure h
  rename_i weight hget
  have hweight := h.1 _ weight hget
  split
  · exact Always.pure h
  · cases e with
    | const => exact Always.pure h
    | symbol id name =>
        exact (addWeight_fed h.2 hweight.1 hweight.2).bind fun symbols hsymbols =>
          Always.pure ⟨h.1, hsymbols⟩
    | unary | binary =>
        exact Always.bind (P := TableFed pairs) (Always.foldlM h.1 fun _ htable _ hq =>
          passWeight_fed hpairs he hweight htable hq) fun nodes hnodes => Always.pure ⟨hnodes, h.2⟩

/-- **The weight of a symbol is made of the roots that pass weight to it**, and if there are none it
is the constant zero. -/
theorem reverseColumn_fed {roots seed : List (Expr α)} (symbols : List Nat)
    (hroots : ∀ e ∈ roots, e ∈ pool) :
    Always (reverseColumn roots seed symbols) (List.Forall₂ (fun i w =>
      IsFedBy (roots.zip seed) i w ∧
        ((∀ p ∈ roots.zip seed, ¬Feeds p i) → w.IsZeroConstant)) symbols) := by
  have hpairs : ∀ p ∈ roots.zip seed, p.1 ∈ pool :=
    fun p hp => hroots p.1 (List.of_mem_zip hp).1
  have hfinal : Always (symbolWeights (evaluationOrder roots) roots seed)
      (TableFed (roots.zip seed)) := by
    refine (rootWeights_fed roots seed).bind fun start hstart => ?_
    refine Always.bind (P := WeightsFed (roots.zip seed)) (Always.foldlM ⟨hstart, tableFed_empty⟩
      fun weights h e he => ?_) fun weights h => Always.pure h.2
    exact visitWeight_fed hpairs (mem_of_mem_evaluationOrder hroots (List.mem_reverse.mp he)) h
  refine hfinal.bind fun table htable => Always.forall₂_mapM fun i _ => ?_
  rw [symbolWeight]
  split
  · rename_i w hw
    obtain ⟨⟨p, hp, hfeeds⟩, hfed⟩ := htable i w hw
    exact Always.pure ⟨hfed, fun hnone => absurd hfeeds (hnone p hp)⟩
  · exact fun n => ⟨over_mkZero _ n, fun _ => always_mkZero n⟩

/-! ## Matrices -/

namespace ExprMatrix

variable {expr arg seed : ExprMatrix α} {kind : Kind} {rows cols : Nat}

omit [Scalar α] in
/-- Columns of equal length make up a matrix, with the entries of the columns. -/
theorem columns_succeed {f : Nat → Build (List (Expr α))} {Q : Nat → List (Expr α) → Prop}
    (hlen : ∀ j n, (f j n).1.length = rows) (h : ∀ j < cols, Always (f j) (Q j)) :
    Succeeds (do
      let columns ← ((List.range cols).mapM f : Build _)
      ofElements kind rows cols columns.flatten : Attempt AlgebraError (ExprMatrix α))
      fun m => m.shape = (rows, cols) ∧ ∀ j < cols, ∃ column, Q j column ∧
        ∀ i < rows, m.grid.get? i j = column[i]? := by
  have hcolumns : Always ((List.range cols).mapM f)
      (List.Forall₂ (fun j column => Q j column ∧ column.length = rows) (List.range cols)) :=
    Always.forall₂_mapM fun j hj n => ⟨h j (List.mem_range.mp hj) n, hlen j n⟩
  refine (Succeeds.lift hcolumns).bind fun columns hall => ?_
  have hlens : ∀ c ∈ columns, c.length = rows := by
    intro c hc
    obtain ⟨_, _, _, hc⟩ := Grid.exists_of_mem_forall₂ hall hc
    exact hc
  refine Succeeds.check (ofElements_eq_ok_iff.mpr ⟨Grid.full_of_columns hall hlens, rfl⟩)
    ⟨rfl, fun j hj => ?_⟩
  obtain ⟨column, hcolumn, hq⟩ := Grid.forall₂_getElem? hall (List.getElem?_range hj)
  refine ⟨column, hq.1, fun i hi => ?_⟩
  rw [Grid.get?, if_pos ⟨hi, hj⟩]
  exact (Grid.getElem?_flatten hlens hi j).trans (by rw [hcolumn, Option.bind_some])

/-- The off-diagonal elements of an identity matrix are the constant zero. -/
theorem identity_sparse (kind : Kind) (n : Nat) :
    Always (identity kind n : Build (ExprMatrix α)) fun m => m.kind = kind ∧
      m.shape = (n, n) ∧ m.grid.Full ∧
      ∀ i j v, i ≠ j → m.grid.get? i j = some v → v.IsZeroConstant := by
  refine always_mkZero.bind fun zero hzero => ?_
  have hcells : Always ((Grid.positions n n).mapM fun p =>
      if p.1 = p.2 then mkOne else pure zero : Build (List (Expr α)))
      (List.Forall₂ (fun p e => p.1 ≠ p.2 → e.IsZeroConstant) (Grid.positions n n)) := by
    refine Always.forall₂_mapM fun p _ => ?_
    split
    · exact fun _ hne => absurd ‹_› hne
    · exact Always.pure fun _ => hzero
  refine hcells.bind fun cells h => Always.pure ⟨rfl, rfl, Grid.full_of_cells h, ?_⟩
  intro i j v hne hget
  obtain ⟨hi, hj, _⟩ := Grid.get?_eq_some_iff.mp hget
  obtain ⟨e, he, hzeros⟩ := Grid.get?_of_cells h hi hj
  rw [hget] at he
  injection he with he
  exact he ▸ hzeros hne

/-- The tangents of the elements in the direction of a column of the seed. -/
theorem forwardDerivative_columns (hzero : Scalar.equal (Scalar.zero : α) Scalar.zero = true)
    (hexpr : ∀ e ∈ expr.elements, e ∈ pool) (hsymbols : ∀ e ∈ arg.elements, e.isSymbol = true)
    (hkinds : ∃ kind, combineKinds .directional [expr.kind, arg.kind, seed.kind] = .ok kind)
    (hrows : seed.rows = arg.numel) :
    Succeeds (expr.forwardDerivative arg seed) fun m => m.shape = (expr.numel, seed.cols) ∧
      ∀ j < seed.cols, ∃ column, List.Forall₂ (IsSparseTangent
        (directionOf (arg.elements.map Expr.id) (seed.grid.columnCells j))) expr.elements column ∧
        ∀ k < expr.numel, m.grid.get? k j = column[k]? := by
  obtain ⟨kind, hkind⟩ := hkinds
  rw [forwardDerivative]
  refine Succeeds.check_bind hkind ?_
  rw [if_neg (not_not.mpr hrows)]
  refine Succeeds.check_bind (symbolIds_of_symbols hsymbols) ?_
  simp only [mapM_lift]
  exact columns_succeed (fun j n => length_mapM_build _ _ _)
    fun j _ => tangents_sparse hzero hexpr

/-- The weights of the symbols where the elements have those of a column of the seed. -/
theorem reverseDerivative_columns (hexpr : ∀ e ∈ expr.elements, e ∈ pool)
    (hsymbols : ∀ e ∈ arg.elements, e.isSymbol = true)
    (hkinds : ∃ kind, combineKinds .directional [expr.kind, arg.kind, seed.kind] = .ok kind)
    (hrows : seed.rows = expr.numel) :
    Succeeds (expr.reverseDerivative arg seed) fun m => m.shape = (arg.numel, seed.cols) ∧
      ∀ j < seed.cols, ∃ column, List.Forall₂ (fun i w =>
          IsFedBy (expr.elements.zip (seed.grid.columnCells j)) i w ∧
            ((∀ p ∈ expr.elements.zip (seed.grid.columnCells j), ¬Feeds p i) → w.IsZeroConstant))
          (arg.elements.map Expr.id) column ∧
        ∀ i < arg.numel, m.grid.get? i j = column[i]? := by
  obtain ⟨kind, hkind⟩ := hkinds
  have hcount : (arg.elements.map Expr.id).length = arg.numel := List.length_map _
  rw [reverseDerivative_eq]
  refine Succeeds.check_bind hkind ?_
  rw [if_neg (not_not.mpr hrows)]
  refine Succeeds.check_bind (symbolIds_of_symbols hsymbols) ?_
  rw [hcount]
  exact columns_succeed (fun j n => (length_mapM_build _ _ _).trans hcount)
    fun j _ => reverseColumn_fed _ hexpr

/-! ## Entries -/

/-- Where an element does not reach a symbol the entry is the constant zero. -/
def JacobianSparse (expr arg m : ExprMatrix α) : Prop :=
  ∀ (k : Fin expr.numel) (i : Fin arg.numel),
    ¬(expr.elements.get k).Reaches (arg.elements.get i) →
      ∃ t, m.grid.get? k i = some t ∧ t.IsZeroConstant

/-- The symbols of an entry are those of its element and of the seeds of symbols that the element
reaches. -/
def ForwardSparse (expr arg seed m : ExprMatrix α) : Prop :=
  ∀ (k : Fin expr.numel) (j : Fin seed.cols), ∃ t, m.grid.get? k j = some t ∧
    ∀ s, t.Mentions s → (expr.elements.get k).Mentions s ∨
      ∃ (i : Fin arg.numel) (v : Expr α), (expr.elements.get k).Reaches (arg.elements.get i) ∧
        seed.grid.get? i j = some v ∧ v.Mentions s

/-- An entry is the constant zero if the elements that reach its symbol have zeros as seeds. Its
symbols are those of elements that reach its symbol and of their seeds. -/
def ReverseSparse (expr arg seed m : ExprMatrix α) : Prop :=
  ∀ (i : Fin arg.numel) (j : Fin seed.cols), ∃ w, m.grid.get? i j = some w ∧
    ((∀ (k : Fin expr.numel) (v : Expr α), (expr.elements.get k).Reaches (arg.elements.get i) →
      seed.grid.get? k j = some v → v.isZero = true) → w.IsZeroConstant) ∧
    ∀ s, w.Mentions s → ∃ (k : Fin expr.numel) (v : Expr α),
      (expr.elements.get k).Reaches (arg.elements.get i) ∧ seed.grid.get? k j = some v ∧
        ((expr.elements.get k).Mentions s ∨ v.Mentions s)

omit [Scalar α] in
/-- A symbol is mentioned where it is reached. -/
theorem reaches_of_mentions {e a : Expr α} (he : e ∈ pool) (ha : a ∈ pool)
    (h : e.Mentions a.id) : e.Reaches a := by
  obtain ⟨x, hreach, _, hid⟩ := h
  exact pool.eq_of_id x (pool.mem_of_reaches he hreach) a ha hid ▸ hreach

omit [Scalar α] in
/-- A tangent in the direction of a column of the seed is a cell of the seed. -/
theorem exists_of_columnDirection (hdistinct : (arg.elements.map Expr.id).Nodup)
    (hfull : seed.grid.Full) (hrows : seed.rows = arg.numel) {j : Nat} (hj : j < seed.cols)
    {id : Nat} {v : Expr α}
    (hv : (directionOf (arg.elements.map Expr.id) (seed.grid.columnCells j))[id]? = some v) :
    ∃ i : Fin arg.numel, id = (arg.elements.get i).id ∧ seed.grid.get? i j = some v := by
  have hlen : arg.elements.length ≤ (seed.grid.columnCells j).length :=
    Nat.le_of_eq (hrows.symm.trans (hfull.length_columnCells hj).symm)
  obtain ⟨i, hid, hget⟩ := exists_of_directionOf hdistinct hlen hv
  exact ⟨i, hid, (Grid.getElem?_columnCells seed.grid hj).symm.trans hget⟩

omit [Scalar α] in
/-- The weights of a column of the seed stand beside the elements. -/
theorem exists_of_mem_weights {j : Nat} (hj : j < seed.cols) {p : Expr α × Expr α}
    (hp : p ∈ expr.elements.zip (seed.grid.columnCells j)) :
    ∃ k : Fin expr.numel, p.1 = expr.elements.get k ∧ seed.grid.get? k j = some p.2 := by
  obtain ⟨k, hk⟩ := List.getElem?_of_mem hp
  obtain ⟨hroot, hweight⟩ := List.getElem?_zip_eq_some.mp hk
  obtain ⟨hlt, hget⟩ := List.getElem?_eq_some_iff.mp hroot
  exact ⟨⟨k, hlt⟩, hget.symm, (Grid.getElem?_columnCells seed.grid hj).symm.trans hweight⟩

section

variable (hexpr : ∀ e ∈ expr.elements, e ∈ pool) (harg : ∀ e ∈ arg.elements, e ∈ pool)
  (hsymbols : ∀ e ∈ arg.elements, e.isSymbol = true)

include hexpr harg hsymbols

theorem forwardDerivative_sparse (hzero : Scalar.equal (Scalar.zero : α) Scalar.zero = true)
    (hdistinct : (arg.elements.map Expr.id).Nodup) (hfull : seed.grid.Full)
    (hkinds : ∃ kind, combineKinds .directional [expr.kind, arg.kind, seed.kind] = .ok kind)
    (hrows : seed.rows = arg.numel) :
    Succeeds (expr.forwardDerivative arg seed) fun m =>
      m.shape = (expr.numel, seed.cols) ∧ ForwardSparse expr arg seed m := by
  refine (forwardDerivative_columns hzero hexpr hsymbols hkinds hrows).imp
    fun m ⟨hshape, hcolumns⟩ => ⟨hshape, fun k j => ?_⟩
  obtain ⟨column, hcolumn, hget⟩ := hcolumns j j.isLt
  obtain ⟨t, ht, hsparse⟩ := Grid.forall₂_getElem? hcolumn (List.getElem?_eq_getElem k.isLt)
  refine ⟨t, (hget k k.isLt).trans ht, fun s hs => ?_⟩
  refine (over_iff_mentions.mp hsparse.isOver s hs).imp id ?_
  rintro ⟨id, v, hmentions, hv, hs⟩
  obtain ⟨i, rfl, hseed⟩ := exists_of_columnDirection hdistinct hfull hrows j.isLt hv
  exact ⟨i, v, reaches_of_mentions (hexpr _ (List.get_mem _ k)) (harg _ (List.get_mem _ i))
    hmentions, hseed, hs⟩

theorem jacobian_sparse (hzero : Scalar.equal (Scalar.zero : α) Scalar.zero = true)
    (hdistinct : (arg.elements.map Expr.id).Nodup)
    (hkinds : ∃ kind, combineKinds .directional [expr.kind, arg.kind, .dm] = .ok kind) :
    Succeeds (expr.jacobian arg) fun m =>
      m.shape = (expr.numel, arg.numel) ∧ JacobianSparse expr arg m := by
  refine (Succeeds.lift (identity_sparse .dm arg.numel)).bind
    fun unit ⟨hkind, hunit, hfull, hzeros⟩ => ?_
  obtain ⟨hrows, hcols⟩ := Prod.mk.inj hunit
  rw [← hkind] at hkinds
  refine (forwardDerivative_columns hzero hexpr hsymbols hkinds hrows).imp
    fun m ⟨hshape, hcolumns⟩ => ⟨hshape.trans (congrArg (expr.numel, ·) hcols), ?_⟩
  intro k i hnot
  have hi : (i : Nat) < unit.cols := Nat.lt_of_lt_of_eq i.isLt hcols.symm
  obtain ⟨column, hcolumn, hget⟩ := hcolumns i hi
  obtain ⟨t, ht, hsparse⟩ := Grid.forall₂_getElem? hcolumn (List.getElem?_eq_getElem k.isLt)
  refine ⟨t, (hget k k.isLt).trans ht, hsparse.zero fun id v hmentions hv => ?_⟩
  obtain ⟨l, rfl, hseed⟩ := exists_of_columnDirection hdistinct hfull hrows hi hv
  -- the column has its one in the row of the symbol, and the element reaches other symbols only
  refine hzeros l i v (fun hli => hnot ?_) hseed
  obtain rfl := Fin.ext hli
  exact reaches_of_mentions (hexpr _ (List.get_mem _ k)) (harg _ (List.get_mem _ l)) hmentions

theorem reverseDerivative_sparse
    (hkinds : ∃ kind, combineKinds .directional [expr.kind, arg.kind, seed.kind] = .ok kind)
    (hrows : seed.rows = expr.numel) :
    Succeeds (expr.reverseDerivative arg seed) fun m =>
      m.shape = (arg.numel, seed.cols) ∧ ReverseSparse expr arg seed m := by
  refine (reverseDerivative_columns hexpr hsymbols hkinds hrows).imp
    fun m ⟨hshape, hcolumns⟩ => ⟨hshape, fun i j => ?_⟩
  obtain ⟨column, hcolumn, hget⟩ := hcolumns j j.isLt
  have hid : (arg.elements.map Expr.id)[(i : Nat)]? = some (arg.elements.get i).id := by
    rw [List.getElem?_map, List.getElem?_eq_getElem (l := arg.elements) i.isLt]
    rfl
  obtain ⟨w, hw, hfed, hnone⟩ := Grid.forall₂_getElem? hcolumn hid
  -- what feeds the symbol is an element that reaches it, beside its seed
  have hfeeds : ∀ p ∈ expr.elements.zip (seed.grid.columnCells j),
      Feeds p (arg.elements.get i).id → ∃ k : Fin expr.numel, p.1 = expr.elements.get k ∧
        (expr.elements.get k).Reaches (arg.elements.get i) ∧ seed.grid.get? k j = some p.2 := by
    intro p hp hfeeds
    obtain ⟨k, hk, hseed⟩ := exists_of_mem_weights j.isLt hp
    have hreach := hfeeds.reaches (hk ▸ hexpr _ (List.get_mem _ k)) (harg _ (List.get_mem _ i))
    rw [hk] at hreach
    exact ⟨k, hk, hreach, hseed⟩
  refine ⟨w, (hget i i.isLt).trans hw, fun hzeros => hnone fun p hp hfeed => ?_, fun s hs => ?_⟩
  · obtain ⟨k, _, hreach, hseed⟩ := hfeeds p hp hfeed
    exact Bool.noConfusion ((hzeros k p.2 hreach hseed).symm.trans hfeed.1)
  · obtain ⟨p, hp, hfeed, hmentions⟩ := over_iff_mentions.mp hfed s hs
    obtain ⟨k, hk, hreach, hseed⟩ := hfeeds p hp hfeed
    exact ⟨k, p.2, hreach, hseed, hmentions.imp_left fun h => hk ▸ h⟩

/-- **Derivatives have zeros where elements do not reach symbols, and no symbols but those of what
they are made from.** -/
theorem derivatives_sparse (hzero : Scalar.equal (Scalar.zero : α) Scalar.zero = true)
    (hdistinct : (arg.elements.map Expr.id).Nodup) :
    ((∃ kind, combineKinds .directional [expr.kind, arg.kind, .dm] = .ok kind) →
      Succeeds (expr.jacobian arg) fun m =>
        m.shape = (expr.numel, arg.numel) ∧ JacobianSparse expr arg m) ∧
    ∀ seed : ExprMatrix α, seed.grid.Full →
      (∃ kind, combineKinds .directional [expr.kind, arg.kind, seed.kind] = .ok kind) →
      (seed.rows = arg.numel → Succeeds (expr.forwardDerivative arg seed) fun m =>
        m.shape = (expr.numel, seed.cols) ∧ ForwardSparse expr arg seed m) ∧
      (seed.rows = expr.numel → Succeeds (expr.reverseDerivative arg seed) fun m =>
        m.shape = (arg.numel, seed.cols) ∧ ReverseSparse expr arg seed m) :=
  ⟨jacobian_sparse hexpr harg hsymbols hzero hdistinct, fun _ hfull hkinds =>
    ⟨forwardDerivative_sparse hexpr harg hsymbols hzero hdistinct hfull hkinds,
      reverseDerivative_sparse hexpr harg hsymbols hkinds⟩⟩

end

/-- A symbol, another one, and the sine of the first. -/
def sineNodes : Pool Float :=
  (((Pool.empty 0).growSymbol "a").growSymbol "b").grow (unary 2 .sin (symbol 0 "a")) rfl
    (List.forall_mem_singleton.mpr (Pool.mem_of_le (Pool.le_grow _ _) (Pool.mem_grow _ _)))

/-- The sine of the first symbol, and the second symbol. -/
def sineAndSymbol : ExprMatrix Float := column .sx [unary 2 .sin (symbol 0 "a"), symbol 1 "b"]

/-- The two symbols. -/
def twoSymbols : ExprMatrix Float := column .sx [symbol 0 "a", symbol 1 "b"]

/-- The seeds are zero and a symbol. -/
def zeroAndSymbol : ExprMatrix Float := column .sx [const 3 0, symbol 4 "weight"]

/-- The sine does not depend on the second symbol, and the weight of the second element does not get
to the first symbol. -/
theorem derivatives_sparse_sine :
    (∃ m, (sineAndSymbol.jacobian twoSymbols 5).1 = .ok m ∧
      ∃ t, m.grid.get? 0 1 = some t ∧ t.IsZeroConstant) ∧
    (∃ m, (sineAndSymbol.forwardDerivative twoSymbols zeroAndSymbol 5).1 = .ok m ∧
      ∃ t, m.grid.get? 0 0 = some t ∧ ¬t.Mentions 4) ∧
    ∃ m, (sineAndSymbol.reverseDerivative twoSymbols zeroAndSymbol 5).1 = .ok m ∧
      ∃ w, m.grid.get? 0 0 = some w ∧ w.IsZeroConstant := by
  have hsine : unary 2 .sin (symbol 0 "a") ∈ sineNodes := Pool.mem_grow _ _
  have hsecond : symbol 1 "b" ∈ sineNodes := Pool.mem_of_le (Pool.le_grow _ _) (Pool.mem_grow _ _)
  have hfirst : symbol 0 "a" ∈ sineNodes := sineNodes.operand_mem _ hsine _ List.mem_cons_self
  have hexpr : ∀ e ∈ sineAndSymbol.elements, e ∈ sineNodes :=
    List.forall_mem_cons.mpr ⟨hsine, List.forall_mem_singleton.mpr hsecond⟩
  have harg : ∀ e ∈ twoSymbols.elements, e ∈ sineNodes :=
    List.forall_mem_cons.mpr ⟨hfirst, List.forall_mem_singleton.mpr hsecond⟩
  obtain ⟨hjacobian, hderivatives⟩ :=
    derivatives_sparse hexpr harg (by decide) (by decide) (by decide)
  obtain ⟨hforward, hreverse⟩ := hderivatives zeroAndSymbol rfl ⟨.sx, rfl⟩
  -- the elements have one symbol each
  have hsineOver : (unary 2 .sin (symbol 0 "a") : Expr Float).Over (· = 0) := rfl
  have hsecondOver : (symbol 1 "b" : Expr Float).Over (· = 1) := rfl
  have hother : ¬(unary 2 .sin (symbol 0 "a") : Expr Float).Reaches (symbol 1 "b") :=
    fun h => absurd (over_iff.mp hsineOver _ h rfl) (by decide)
  refine ⟨?_, ?_, ?_⟩
  · obtain ⟨m, hm, _, hsparse⟩ := hjacobian ⟨.sx, rfl⟩ 5
    exact ⟨m, hm, hsparse ⟨0, by decide⟩ ⟨1, by decide⟩ hother⟩
  · obtain ⟨m, hm, _, hsparse⟩ := hforward rfl 5
    obtain ⟨t, ht, hsymbols⟩ := hsparse ⟨0, by decide⟩ ⟨0, by decide⟩
    refine ⟨m, hm, t, ht, fun h => ?_⟩
    rcases hsymbols 4 h with hself | ⟨i, v, hreach, hseed, hv⟩
    · exact absurd (over_iff_mentions.mp hsineOver 4 hself) (by decide)
    · match i with
      | ⟨0, _⟩ =>
          obtain rfl : const 3 0 = v := Option.some.inj hseed
          have hconst : (const 3 0 : Expr Float).Over fun _ => False := trivial
          exact over_iff_mentions.mp hconst 4 hv
      | ⟨1, _⟩ => exact hother hreach
  · obtain ⟨m, hm, _, hsparse⟩ := hreverse rfl 5
    obtain ⟨w, hw, hzeros, _⟩ := hsparse ⟨0, by decide⟩ ⟨0, by decide⟩
    refine ⟨m, hm, w, hw, hzeros fun k v hreach hseed => ?_⟩
    match k with
    | ⟨0, _⟩ =>
        obtain rfl : const 3 0 = v := Option.some.inj hseed
        decide
    | ⟨1, _⟩ => exact absurd (over_iff.mp hsecondOver _ hreach rfl) (by decide)

end ExprMatrix

end ExplicitOde
