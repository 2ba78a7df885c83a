import ExplicitOde.Proofs.Computation
import ExplicitOde.Proofs.Derivative.Forward
import ExplicitOde.Proofs.Matrix.Value

/-!
# Forward mode multiplies by the Jacobian matrix

The Jacobian matrix of a matrix of expressions has the derivatives of its elements, in column-major
order, by the symbols of another matrix. The columns of a forward derivative are the rates of the
elements in the directions of the columns of the seed, which is to say the Jacobian matrix times the
seed.
-/

namespace ExplicitOde

open ExplicitOde.Expr

variable {α : Type} [ExactScalar α] {r : Regularity} {σ : Nat → ℝ} {pool : Pool α}

namespace ExprMatrix

/-- The derivatives of the elements of `expr` by the symbols of `arg`. -/
noncomputable def jacobianAt (expr arg : ExprMatrix α) (σ : Nat → ℝ) :
    Matrix (Fin expr.numel) (Fin arg.numel) ℝ :=
  Matrix.of fun k i => ((expr.elements.get k).diff (arg.elements.get i).id).real σ

omit [ExactScalar α] in
/-- Differentiation is with respect to symbols, and these go by their identities. -/
theorem symbolIds_eq_ok {arg : ExprMatrix α} {symbols : List Nat}
    (h : arg.symbolIds = .ok symbols) : symbols = arg.elements.map Expr.id := by
  have hids := mapM_eq_ok_iff.mp h
  rw [← List.forall₂_eq_eq_eq, List.forall₂_map_right_iff]
  refine hids.flip.imp fun id e h => ?_
  cases e with
  | symbol i name => exact (Except.ok.inj h).symm
  | const | unary | binary => injection h

end ExprMatrix

/-! ## One column -/

section Direction

variable {es seed : List (Expr α)} {v : Fin es.length → ℝ}

omit [ExactScalar α] in
theorem id_injective (hdistinct : (es.map Expr.id).Nodup) {i k : Fin es.length}
    (h : (es.get i).id = (es.get k).id) : i = k := by
  have hi : (i : Nat) < (es.map Expr.id).length := by rw [List.length_map]; exact i.isLt
  have hk : (k : Nat) < (es.map Expr.id).length := by rw [List.length_map]; exact k.isLt
  have hids : (es.map Expr.id)[(i : Nat)] = (es.map Expr.id)[(k : Nat)] := by
    rw [List.getElem_map, List.getElem_map]
    exact h
  exact Fin.ext (hdistinct.getElem_inj_iff.mp hids)

omit [ExactScalar α] in
/-- In the direction of distinct symbols each has the rate at its place. -/
theorem rates_id (hdistinct : (es.map Expr.id).Nodup) (i : Fin es.length) :
    rates (fun i => (es.get i).id) v (es.get i).id = v i := by
  rw [rates, Finset.sum_eq_single i]
  · exact if_pos rfl
  · intro k _ hki
    exact if_neg fun h => hki (id_injective hdistinct h).symm
  · exact fun h => absurd (Finset.mem_univ i) h

omit [ExactScalar α] in
/-- The symbol at a place has the tangent at that place. -/
theorem directionOf_id (hdistinct : (es.map Expr.id).Nodup) (hlen : es.length ≤ seed.length)
    (i : Fin es.length) {t : Expr α} (ht : seed[(i : Nat)]? = some t) :
    (directionOf (es.map Expr.id) seed)[(es.get i).id]? = some t := by
  have hkeys : ((es.map Expr.id).zip seed).map Prod.fst = es.map Expr.id :=
    List.map_fst_zip (by rw [List.length_map]; exact hlen)
  refine Std.HashMap.getElem?_ofList_of_mem BEq.rfl ?_ ?_
  · rw [← hkeys, List.nodup_iff_pairwise_ne, List.pairwise_map] at hdistinct
    exact hdistinct.imp fun h => beq_false_of_ne h
  · refine List.mem_of_getElem? (i := i) ?_
    rw [List.getElem?_zip_eq_some]
    exact ⟨by simp, ht⟩

omit [ExactScalar α] in
/-- Only the symbols have tangents, each the one at its place. -/
theorem exists_of_directionOf (hdistinct : (es.map Expr.id).Nodup) (hlen : es.length ≤ seed.length)
    {id : Nat} {t : Expr α} (ht : (directionOf (es.map Expr.id) seed)[id]? = some t) :
    ∃ i : Fin es.length, id = (es.get i).id ∧ seed[(i : Nat)]? = some t := by
  have hid : id ∈ es.map Expr.id := by
    by_contra hid
    rw [directionOf, Std.HashMap.getElem?_ofList_of_contains_eq_false] at ht
    · injection ht
    · rw [List.map_fst_zip (by rw [List.length_map]; exact hlen)]
      simpa using hid
  obtain ⟨e, he, rfl⟩ := List.mem_map.mp hid
  obtain ⟨i, rfl⟩ := List.get_of_mem he
  have hi : (i : Nat) < seed.length := Nat.lt_of_lt_of_le i.isLt hlen
  rw [directionOf_id hdistinct hlen i (List.getElem?_eq_getElem hi)] at ht
  exact ⟨i, rfl, (List.getElem?_eq_getElem hi).trans ht⟩

/-- A column of a seed is a direction. -/
theorem directionOf_hasTable (hdistinct : (es.map Expr.id).Nodup)
    (hseed : ∀ i : Fin es.length, ∃ t, seed[(i : Nat)]? = some t ∧ pool.Has r σ t (v i) True) :
    pool.HasTable r σ (directionOf (es.map Expr.id) seed) (rates (fun i => (es.get i).id) v)
      fun _ => True := by
  have hlen : es.length ≤ seed.length := by
    by_contra hlt
    obtain ⟨t, ht, _⟩ := hseed ⟨seed.length, by omega⟩
    simp at ht
  refine ⟨fun id t ht => ?_, fun id hnone => ?_⟩
  · obtain ⟨i, rfl, hi⟩ := exists_of_directionOf hdistinct hlen ht
    obtain ⟨t', ht', hhas⟩ := hseed i
    rw [hi] at ht'
    injection ht' with ht'
    exact (ht' ▸ hhas).congr (rates_id hdistinct i).symm
  · refine Finset.sum_eq_zero fun i _ => if_neg ?_
    rintro rfl
    obtain ⟨t, ht, _⟩ := hseed i
    rw [directionOf_id hdistinct hlen i ht] at hnone
    injection hnone

end Direction

/-! ## All columns -/

namespace ExprMatrix

section Forward

variable {expr arg seed : ExprMatrix α} {cols : Nat} {V : Matrix (Fin arg.numel) (Fin cols) ℝ}

/-- The entry of the Jacobian matrix times the seed is the rate in the direction of a column. -/
theorem directional_eq_mul {k : Fin expr.numel} (h : (expr.elements.get k).Within .smooth σ)
    (j : Fin cols) :
    (expr.elements.get k).directional σ (rates (fun i => (arg.elements.get i).id) fun i => V i j) =
      (expr.jacobianAt arg σ * V) k j :=
  directional_eq_sum h _ _

/-- The tangents of the elements of `expr` in the direction of a column of `V`. -/
def IsColumn (expr arg : ExprMatrix α) (V : Matrix (Fin arg.numel) (Fin cols) ℝ)
    (pool : Pool α) (r : Regularity) (σ : Nat → ℝ) (j : Nat) (ts : List (Expr α)) : Prop :=
  ∀ hj : j < cols, List.Forall₂
    (IsTangent pool r σ (rates (fun i => (arg.elements.get i).id) fun i => V i ⟨j, hj⟩))
    expr.elements ts

theorem column_ensures (hexpr : ∀ e ∈ expr.elements, e ∈ pool)
    (hdistinct : (arg.elements.map Expr.id).Nodup) (hcols : seed.cols = cols)
    (hseed : ∀ (i : Fin arg.numel) (j : Fin cols), ∃ e, seed.grid.get? i j = some e ∧
      pool.Has r σ e (V i j) True) {j : Nat} (hj : j < cols) :
    pool.Ensures (tangents (evaluationOrder expr.elements) expr.elements
        (directionOf (arg.elements.map Expr.id) (seed.grid.columnCells j)))
      fun after => IsColumn expr arg V after r σ j := by
  refine (tangents_ensures hexpr (directionOf_hasTable (v := fun i => V i ⟨j, hj⟩) hdistinct
    fun i => ?_)).imp fun _ _ _ h _ => h
  obtain ⟨e, he, hhas⟩ := hseed i ⟨j, hj⟩
  exact ⟨e, (Grid.getElem?_columnCells seed.grid
    (show j < seed.cols from hcols ▸ hj)).trans he, hhas⟩

/-- Columns of tangents make up the Jacobian matrix times the seed. -/
theorem hasMatrix_of_columns (hsmooth : ∀ e ∈ expr.elements, e.Within .smooth σ)
    {columns : List (List (Expr α))} {kind : Kind}
    (h : List.Forall₂ (IsColumn expr arg V pool r σ) (List.range cols) columns) :
    pool.HasMatrix r σ ⟨kind, ⟨expr.numel, cols, columns.flatten⟩⟩ (expr.jacobianAt arg σ * V) := by
  have hlen : ∀ c ∈ columns, c.length = expr.numel := by
    intro c hc
    obtain ⟨j, hj, hcol⟩ := Grid.exists_of_mem_forall₂ h hc
    exact (hcol (List.mem_range.mp hj)).length_eq.symm
  refine ⟨rfl, Grid.full_of_columns h hlen, fun k j => ?_⟩
  obtain ⟨ts, hts, hget⟩ := Grid.get?_of_columns h hlen k.isLt j.isLt
  obtain ⟨t, ht, htan⟩ := Grid.forall₂_getElem? (hts j.isLt) (List.getElem?_eq_getElem k.isLt)
  have hk := hsmooth (expr.elements.get k) (List.get_mem _ _)
  exact ⟨t, hget.trans ht, (htan.has.congr (directional_eq_mul hk j)).imp fun _ => hk⟩

/-- **Forward mode multiplies by the Jacobian matrix.** -/
theorem forwardDerivative_yields (hexpr : ∀ e ∈ expr.elements, e ∈ pool)
    (hdistinct : (arg.elements.map Expr.id).Nodup)
    (hsmooth : ∀ e ∈ expr.elements, e.Within .smooth σ) (hcols : seed.cols = cols)
    (hseed : ∀ (i : Fin arg.numel) (j : Fin cols), ∃ e, seed.grid.get? i j = some e ∧
      pool.Has r σ e (V i j) True) :
    pool.Yields (expr.forwardDerivative arg seed) fun after m =>
      after.HasMatrix r σ m (expr.jacobianAt arg σ * V) := by
  rw [forwardDerivative]
  refine Pool.Yields.check_bind fun kind _ => ?_
  split
  · exact Pool.Yields.throw_bind
  dsimp only
  refine Pool.Yields.check_bind fun symbols hsymbols => ?_
  rw [symbolIds_eq_ok hsymbols, mapM_lift]
  -- one pass for every column, each over what the passes before have made
  have hcolumns : pool.Ensures ((List.range seed.cols).mapM fun j =>
      tangents (evaluationOrder expr.elements) expr.elements
        (directionOf (arg.elements.map Expr.id) (seed.grid.columnCells j))) fun after =>
      List.Forall₂ (IsColumn expr arg V after r σ) (List.range seed.cols) := by
    refine Pool.Ensures.mapM (fun hle h hj => (h hj).imp fun _ _ ht => ht.of_le hle)
      fun after hle j hj => ?_
    refine column_ensures (fun e he => Pool.mem_of_le hle (hexpr e he)) hdistinct hcols
      (fun i j => ?_) (hcols ▸ List.mem_range.mp hj)
    obtain ⟨e, he, hhas⟩ := hseed i j
    exact ⟨e, he, hhas.of_le hle⟩
  refine (Pool.Yields.lift hcolumns).bind fun p₁ columns _ hcols' =>
    Pool.Yields.check fun m hm => ?_
  rw [hcols] at hcols' hm
  rw [(ofElements_eq_ok_iff.mp hm).2]
  exact hasMatrix_of_columns hsmooth hcols'

/-- A forward derivative is refused unless there is one row of the seed for every symbol, so what
follows may rely on that. -/
theorem forwardDerivative_yields_realAt (hexpr : ∀ e ∈ expr.elements, e ∈ pool)
    (hdistinct : (arg.elements.map Expr.id).Nodup)
    (hsmooth : ∀ e ∈ expr.elements, e.Within .smooth σ) (hcols : seed.cols = cols)
    (hfull : seed.grid.Full)
    (hseed : ∀ e ∈ seed.elements, e ∈ pool ∧ e.Within r σ) :
    pool.Yields (expr.forwardDerivative arg seed) fun after m => seed.rows = arg.numel ∧
      after.HasMatrix r σ m
        (expr.jacobianAt arg σ * (seed.realAt σ : Matrix (Fin arg.numel) (Fin cols) ℝ)) := by
  by_cases hrows : seed.rows = arg.numel
  · have hvalues : pool.HasMatrix r σ seed
        (seed.realAt σ : Matrix (Fin arg.numel) (Fin cols) ℝ) :=
      Pool.hasMatrix_realAt (Prod.ext hrows hcols) hfull hseed
    exact (forwardDerivative_yields hexpr hdistinct hsmooth hcols hvalues.entry).imp
      fun _ _ _ h => ⟨hrows, h⟩
  · rw [forwardDerivative]
    refine Pool.Yields.check_bind fun kind _ => ?_
    rw [if_pos hrows]
    exact Pool.Yields.throw_bind

theorem jacobian_yields (hexpr : ∀ e ∈ expr.elements, e ∈ pool)
    (hdistinct : (arg.elements.map Expr.id).Nodup)
    (hsmooth : ∀ e ∈ expr.elements, e.Within .smooth σ) :
    pool.Yields (expr.jacobian arg) fun after m =>
      after.HasMatrix r σ m (expr.jacobianAt arg σ) := by
  refine (Pool.Yields.lift (identity_ensures r σ .dm arg.numel)).bind fun p₁ unit hle₁ hunit => ?_
  have hproduct := forwardDerivative_yields (fun e he => Pool.mem_of_le hle₁ (hexpr e he)) hdistinct
    hsmooth hunit.cols_eq hunit.entry
  rwa [Matrix.mul_one] at hproduct

end Forward

/-! ## Success -/

section Success

variable {expr arg seed : ExprMatrix α}

/-- **A forward derivative exists if and only if it passes its checks.** -/
theorem forwardDerivative_succeeds_iff (n : Nat) :
    (∃ m, (expr.forwardDerivative arg seed n).1 = .ok m) ↔
      (∃ kind, combineKinds .directional [expr.kind, arg.kind, seed.kind] = .ok kind) ∧
        seed.rows = arg.numel ∧ ∃ symbols, arg.symbolIds = .ok symbols := by
  have hcells : ∀ symbols, (((List.range seed.cols).mapM fun j =>
      tangents (evaluationOrder expr.elements) expr.elements
        (directionOf symbols (seed.grid.columnCells j))) n).1.flatten.length =
          expr.numel * seed.cols := by
    intro symbols
    have hcolumns : Always ((List.range seed.cols).mapM fun j =>
        tangents (evaluationOrder expr.elements) expr.elements
          (directionOf symbols (seed.grid.columnCells j)))
        fun columns => ∀ ts ∈ columns, ts.length = expr.numel :=
      Always.mapM fun _ _ k => length_mapM_build _ _ _
    have hlen := Grid.length_flatten (hcolumns n)
    rwa [length_mapM_build, List.length_range] at hlen
  rw [forwardDerivative]
  simp only [check_bind_run_iff, refuse_run_iff, mapM_lift, not_not]
  constructor
  · rintro ⟨m, kind, hkind, hrows, symbols, hsymbols, _⟩
    exact ⟨⟨kind, hkind⟩, hrows, symbols, hsymbols⟩
  · rintro ⟨⟨kind, hkind⟩, hrows, symbols, hsymbols⟩
    exact ⟨_, kind, hkind, hrows, symbols, hsymbols, ofElements_eq_ok_iff.mpr ⟨hcells symbols, rfl⟩⟩

/-- Matrices that combine with a third one combine with numbers. -/
theorem combineKinds_dm {operation : Operation} {a b c : Kind}
    (h : ∃ kind, combineKinds operation [a, b, c] = .ok kind) :
    ∃ kind, combineKinds operation [a, b, .dm] = .ok kind := by
  obtain ⟨kind, hkind⟩ := h
  cases a <;> cases b <;> cases c <;> first | exact ⟨_, rfl⟩ | injection hkind

/-- A Jacobian matrix exists where there is any derivative. -/
theorem jacobian_succeeds {other : Kind}
    (hkinds : ∃ kind, combineKinds .directional [expr.kind, arg.kind, other] = .ok kind)
    (hsymbols : ∃ symbols, arg.symbolIds = .ok symbols) (n : Nat) :
    ∃ m, (expr.jacobian arg n).1 = .ok m := by
  let unit := (identity .dm arg.numel : Build (ExprMatrix α)) n
  have hunit : unit.1.kind = .dm ∧ unit.1.rows = arg.numel := ⟨rfl, rfl⟩
  show ∃ m, (expr.forwardDerivative arg unit.1 unit.2).1 = .ok m
  generalize unit = unit' at hunit
  rw [forwardDerivative_succeeds_iff, hunit.1]
  exact ⟨combineKinds_dm hkinds, hunit.2, hsymbols⟩

end Success

/-! ## In exact arithmetic -/

/-- The Jacobian matrix of expressions evaluates to the Jacobian matrix. -/
theorem jacobian_evaluatesTo {expr arg : ExprMatrix α} {other : Kind}
    (hexpr : ∀ e ∈ expr.elements, e ∈ pool) (hdistinct : (arg.elements.map Expr.id).Nodup)
    (hsmooth : ∀ e ∈ expr.elements, e.Within .smooth σ)
    (hkinds : ∃ kind, combineKinds .directional [expr.kind, arg.kind, other] = .ok kind)
    (hsymbols : ∃ symbols, arg.symbolIds = .ok symbols) :
    ∃ derivatives, (expr.jacobian arg pool.next).1 = .ok derivatives ∧
      derivatives.EvaluatesTo σ (expr.jacobianAt arg σ) := by
  obtain ⟨derivatives, hrun⟩ := jacobian_succeeds hkinds hsymbols pool.next
  obtain ⟨after, _, _, h⟩ := jacobian_yields hexpr hdistinct hsmooth
  exact ⟨derivatives, hrun, (h derivatives hrun).evaluatesTo⟩

/-- **A forward derivative evaluates to the Jacobian matrix times its seed, and the Jacobian matrix
of expressions to the Jacobian matrix.** -/
theorem forwardDerivative_evaluatesTo {expr arg seed result : ExprMatrix α} {cols : Nat}
    {V : Matrix (Fin arg.numel) (Fin cols) ℝ} (hexpr : ∀ e ∈ expr.elements, e ∈ pool)
    (hseedMem : ∀ e ∈ seed.elements, e ∈ pool) (hdistinct : (arg.elements.map Expr.id).Nodup)
    (hrun : (expr.forwardDerivative arg seed pool.next).1 = .ok result)
    (hsmooth : ∀ e ∈ expr.elements, e.Within .smooth σ) (hseed : seed.EvaluatesTo σ V) :
    result.EvaluatesTo σ (expr.jacobianAt arg σ * V) ∧
      ∀ other : Pool α, (∀ e ∈ expr.elements, e ∈ other) →
        ∃ derivatives, (expr.jacobian arg other.next).1 = .ok derivatives ∧
          derivatives.EvaluatesTo σ (expr.jacobianAt arg σ) := by
  have hcols : seed.cols = cols := (Prod.mk.inj hseed.shape).2
  constructor
  · obtain ⟨after, _, _, h⟩ := forwardDerivative_yields hexpr hdistinct hsmooth hcols
      (hseed.has hseedMem)
    exact (h result hrun).evaluatesTo
  · intro other hother
    obtain ⟨hkinds, _, hsymbols⟩ := (forwardDerivative_succeeds_iff pool.next).mp ⟨result, hrun⟩
    exact jacobian_evaluatesTo hother hdistinct hsmooth hkinds hsymbols

/-! The square of a symbol, and its sum with the logarithm of another symbol. -/

/-- The symbols. -/
def sample : ExprMatrix ℚ := column .sx [symbol 0 "x", symbol 1 "y"]

theorem sample_distinct : (sample.elements.map Expr.id).Nodup := by decide

/-- The square has one symbol for both factors. -/
def sampleSquare : Expr ℚ := binary 2 .mul (symbol 0 "x") (symbol 0 "x")

/-- The logarithm. -/
def sampleLog : Expr ℚ := unary 3 .log (symbol 1 "y")

/-- The sum. -/
def sampleSum : Expr ℚ := binary 4 .add sampleSquare sampleLog

/-- The sum is asked for twice, and one of its terms by itself. -/
def sampleResults : ExprMatrix ℚ := column .sx [sampleSum, sampleSquare, sampleSum]

/-- The symbols are nodes. -/
def sampleSymbols : Pool ℚ := .ofSymbols 2 sample.elements (by decide) (by decide)

/-- These are all the nodes there are. -/
def samplePool : Pool ℚ :=
  ((sampleSymbols.grow sampleSquare rfl
    (List.forall_mem_cons.mpr ⟨List.mem_cons_self, List.forall_mem_singleton.mpr
      List.mem_cons_self⟩)).grow sampleLog rfl
    (List.forall_mem_singleton.mpr (Pool.mem_of_le (Pool.le_grow _ _)
      (List.mem_cons_of_mem _ List.mem_cons_self)))).grow sampleSum rfl
    (List.forall_mem_cons.mpr ⟨Pool.mem_of_le (Pool.le_grow _ _) (Pool.mem_grow _ _),
      List.forall_mem_singleton.mpr (Pool.mem_grow _ _)⟩)

theorem sampleResults_mem : ∀ e ∈ sampleResults.elements, e ∈ samplePool := by
  have hsum : sampleSum ∈ samplePool := Pool.mem_grow _ _
  have hsquare : sampleSquare ∈ samplePool := samplePool.operand_mem _ hsum _ List.mem_cons_self
  exact List.forall_mem_cons.mpr ⟨hsum, List.forall_mem_cons.mpr
    ⟨hsquare, List.forall_mem_singleton.mpr hsum⟩⟩

/-- A matrix of the symbols only. -/
theorem mem_samplePool {m : ExprMatrix ℚ} (h : m.elements ⊆ sample.elements) :
    ∀ e ∈ m.elements, e ∈ samplePool := by
  have hle : sampleSymbols ≤ samplePool :=
    Pool.le_trans (Pool.le_trans (Pool.le_grow _ _) (Pool.le_grow _ _)) (Pool.le_grow _ _)
  exact fun e he => Pool.mem_of_le hle (h he)

/-- Values of the symbols. -/
noncomputable def sampleAt (id : Nat) : ℝ := (if id = 0 then 3 else 2 : Nat)

theorem sampleResults_smooth : ∀ e ∈ sampleResults.elements, e.Within .smooth sampleAt := by
  have hsquare : sampleSquare.Within .smooth sampleAt := ⟨trivial, trivial, trivial⟩
  have hlog : sampleLog.Within .smooth sampleAt := ⟨trivial, two_pos⟩
  have hsum : sampleSum.Within .smooth sampleAt := ⟨hsquare, hlog, trivial⟩
  exact List.forall_mem_cons.mpr ⟨hsum, List.forall_mem_cons.mpr
    ⟨hsquare, List.forall_mem_singleton.mpr hsum⟩⟩

/-- The derivatives at three and two. -/
theorem sampleResults_jacobianAt :
    sampleResults.jacobianAt sample sampleAt = !![(6 : ℝ), 1 / 2; 6, 0; 6, 1 / 2] := by
  have hsum : ∀ s, (sampleSum.diff s).real sampleAt =
      (sampleSquare.diff s).real sampleAt + (sampleLog.diff s).real sampleAt := by
    intro s
    simp [sampleSum, diffBinary]
  have hx : (sampleSquare.diff 0).real sampleAt = 6 ∧ (sampleLog.diff 0).real sampleAt = 0 := by
    norm_num [sampleSquare, sampleLog, diff, diffBinary, real_diffUnary, sampleAt]
  have hy : (sampleSquare.diff 1).real sampleAt = 0 ∧ (sampleLog.diff 1).real sampleAt = 1 / 2 := by
    simp [sampleSquare, sampleLog, diff, diffBinary, real_diffUnary, sampleAt, UnaryOp.slope]
  have hsumx : (sampleSum.diff 0).real sampleAt = 6 := by rw [hsum, hx.1, hx.2, add_zero]
  have hsumy : (sampleSum.diff 1).real sampleAt = 1 / 2 := by rw [hsum, hy.1, hy.2, zero_add]
  ext k i
  change Fin 3 at k
  change Fin 2 at i
  fin_cases k <;> fin_cases i
  · exact hsumx
  · exact hsumy
  · exact hx.1
  · exact hy.1
  · exact hsumx
  · exact hsumy

/-- The symbols as a direction, and the same in the other order. -/
def sampleDirections : ExprMatrix ℚ :=
  ⟨.sx, ⟨2, 2, [symbol 0 "x", symbol 1 "y", symbol 1 "y", symbol 0 "x"]⟩⟩

theorem sampleDirections_mem : ∀ e ∈ sampleDirections.elements, e ∈ samplePool :=
  mem_samplePool (by simp [sampleDirections, sample, column, elements, Grid.column])

theorem sampleDirections_evaluatesTo :
    sampleDirections.EvaluatesTo sampleAt !![(3 : ℝ), 2; 2, 3] where
  shape := rfl
  value i j := by fin_cases i <;> fin_cases j <;> rfl

theorem sampleDirections_run :
    ∃ result, (sampleResults.forwardDerivative sample sampleDirections 5).1 = .ok result :=
  (forwardDerivative_succeeds_iff _).mpr ⟨⟨.sx, rfl⟩, rfl, [0, 1], rfl⟩

/-- The rates of change at three and two. -/
theorem forwardDerivative_evaluatesTo_log :
    ∃ result derivatives,
      (sampleResults.forwardDerivative sample sampleDirections 5).1 = .ok result ∧
      result.EvaluatesTo sampleAt !![(19 : ℝ), 27 / 2; 18, 12; 19, 27 / 2] ∧
      (sampleResults.jacobian sample 5).1 = .ok derivatives ∧
      derivatives.EvaluatesTo sampleAt !![(6 : ℝ), 1 / 2; 6, 0; 6, 1 / 2] := by
  obtain ⟨result, hrun⟩ := sampleDirections_run
  obtain ⟨hvalue, hjacobian⟩ := forwardDerivative_evaluatesTo sampleResults_mem
    sampleDirections_mem sample_distinct hrun sampleResults_smooth sampleDirections_evaluatesTo
  obtain ⟨derivatives, hderivatives, hentries⟩ := hjacobian samplePool sampleResults_mem
  rw [sampleResults_jacobianAt] at hvalue hentries
  have hproduct : !![(6 : ℝ), 1 / 2; 6, 0; 6, 1 / 2] * !![(3 : ℝ), 2; 2, 3] =
      !![(19 : ℝ), 27 / 2; 18, 12; 19, 27 / 2] := by
    ext k j
    fin_cases k <;> fin_cases j <;> norm_num [Matrix.mul_apply, Fin.sum_univ_two]
  exact ⟨result, derivatives, hrun, hproduct ▸ hvalue, hderivatives, hentries⟩

end ExprMatrix

end ExplicitOde
