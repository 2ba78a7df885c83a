import ExplicitOde.Proofs.Derivative.Jacobian
import ExplicitOde.Proofs.Derivative.Reverse

/-!
# Reverse mode multiplies by the transposed Jacobian matrix

The columns of a reverse derivative are the weights that the symbols end with when the elements of
the expression have the weights of a column of the seed, which is to say the transposed Jacobian
matrix times the seed. So the two modes are transposes of each other: weights taken against a
forward derivative are a reverse derivative taken against its directions.
-/

namespace ExplicitOde

open ExplicitOde.Expr Matrix

variable {α : Type}

section Column

variable [Scalar α]

/-- The weight that a symbol ended with; one that was not reached has none. -/
def symbolWeight (table : ExprTable α) (id : Nat) : Build (Expr α) :=
  match table[id]? with
  | some weight => pure weight
  | none => mkZero

/-- The weights of some symbols. -/
def reverseColumn (roots seed : List (Expr α)) (symbols : List Nat) : Build (List (Expr α)) := do
  let table ← symbolWeights (evaluationOrder roots) roots seed
  symbols.mapM (symbolWeight table)

/-- No column of a reverse derivative fails. -/
theorem reverseColumn_lift (roots seed : List (Expr α)) (symbols : List Nat) :
    (do
      let table ← symbolWeights (evaluationOrder roots) roots seed
      symbols.mapM fun id =>
        match table[id]? with
        | some weight => pure weight
        | none => mkZero : Attempt AlgebraError (List (Expr α))) =
      liftM (reverseColumn roots seed symbols) := by
  have hone : ∀ table : ExprTable α, (fun id : Nat =>
      (match table[id]? with
      | some weight => pure weight
      | none => mkZero : Attempt AlgebraError (Expr α))) =
        fun id => liftM (symbolWeight table id) := by
    intro table
    funext id
    rw [symbolWeight]
    cases table[id]? <;> rfl
  simp only [hone, mapM_lift]
  rfl

/-- A reverse derivative, its columns made without a failure. -/
theorem reverseDerivative_eq (expr arg seed : ExprMatrix α) :
    expr.reverseDerivative arg seed = (do
      let kind ← ExprMatrix.combineKinds .directional [expr.kind, arg.kind, seed.kind]
      if seed.rows ≠ expr.numel then
        throw (.shapes .directional (expr.numel, 1) seed.shape)
      let symbols ← arg.symbolIds
      let columns ← ((List.range seed.cols).mapM fun j =>
        reverseColumn expr.elements (seed.grid.columnCells j) symbols : Build _)
      ExprMatrix.ofElements kind symbols.length seed.cols columns.flatten) := by
  simp only [← mapM_lift, ← reverseColumn_lift]
  rfl

end Column

variable [ExactScalar α] {r : Regularity} {σ : Nat → ℝ} {pool : Pool α}

/-! ## One column -/

/-- The weights of symbols, one after the other. -/
theorem reverseColumn_ensures {roots seed : List (Expr α)} {w : Fin roots.length → ℝ}
    {symbols : List Nat} (hroots : ∀ e ∈ roots, e ∈ pool)
    (hsmooth : ∀ e ∈ roots, e.Within .smooth σ)
    (hseed : ∀ k : Fin roots.length, ∃ t, seed[(k : Nat)]? = some t ∧ pool.Has r σ t (w k) True) :
    pool.Ensures (reverseColumn roots seed symbols) fun after =>
      List.Forall₂ (fun s e => after.Has r σ e (∑ k, ((roots.get k).diff s).real σ * w k) True)
        symbols := by
  have hpairs : ∀ p ∈ roots.zip seed, pool.Has r σ p.2 (p.2.real σ) True := by
    intro p hp
    obtain ⟨n, hn⟩ := List.getElem?_of_mem hp
    obtain ⟨hroot, hweight⟩ := List.getElem?_zip_eq_some.mp hn
    have hlt : n < roots.length := (List.getElem?_eq_some_iff.mp hroot).1
    obtain ⟨t, ht, hhas⟩ := hseed ⟨n, hlt⟩
    rw [hweight] at ht
    injection ht with ht
    exact ⟨ht ▸ hhas.mem, rfl, fun _ => ht ▸ hhas.within trivial⟩
  -- the weight of a symbol is the sum of what the roots pass to it
  have hvalues : ∀ s, ((roots.zip seed).map fun p =>
      p.2.real σ * p.1.directional σ (Pi.single s 1)).sum =
        ∑ k, ((roots.get k).diff s).real σ * w k := by
    intro s
    simp only [mul_comm (_ : ℝ) (directional _ _ _)]
    refine sum_zip rfl (fun k => ⟨roots.get k, List.getElem?_eq_getElem k.isLt, ?_⟩) fun k =>
      (hseed k).imp fun t ht => ⟨ht.1, ht.2.real⟩
    exact directional_single (hsmooth _ (List.get_mem roots k)) s
  rw [reverseColumn]
  refine (symbolWeights_ensures hroots hsmooth hpairs).bind fun p₁ table hle₁ htable => ?_
  refine Pool.Ensures.mapM (fun hle h => h.of_le hle) fun after hle s _ => ?_
  rw [symbolWeight]
  cases hs : table[s]? with
  | some weight =>
      exact Pool.Ensures.pure (((htable.some s weight hs).congr (hvalues s)).of_le hle)
  | none =>
      exact (mkZero_ensures r σ).imp fun _ _ _ h =>
        h.congr ((htable.none s hs).symm.trans (hvalues s))

/-! ## All columns -/

namespace ExprMatrix

variable {expr arg seed : ExprMatrix α} {cols : Nat} {W : Matrix (Fin expr.numel) (Fin cols) ℝ}

/-- The weights of the symbols of `arg` when the elements of `expr` have the weights of a column of
`W`. -/
def IsWeightColumn (expr arg : ExprMatrix α) (W : Matrix (Fin expr.numel) (Fin cols) ℝ)
    (pool : Pool α) (r : Regularity) (σ : Nat → ℝ) (j : Nat) (ws : List (Expr α)) : Prop :=
  ∀ hj : j < cols, List.Forall₂ (fun s e => pool.Has r σ e
    (∑ k, ((expr.elements.get k).diff s).real σ * W k ⟨j, hj⟩) True) (arg.elements.map Expr.id) ws

theorem hasMatrix_of_weightColumns {columns : List (List (Expr α))} {kind : Kind}
    (h : List.Forall₂ (IsWeightColumn expr arg W pool r σ) (List.range cols) columns) :
    pool.HasMatrix r σ ⟨kind, ⟨arg.numel, cols, columns.flatten⟩⟩
      ((expr.jacobianAt arg σ)ᵀ * W) := by
  have hlen : ∀ c ∈ columns, c.length = arg.numel := by
    intro c hc
    obtain ⟨j, hj, hcol⟩ := Grid.exists_of_mem_forall₂ h hc
    rw [← (hcol (List.mem_range.mp hj)).length_eq, List.length_map]
    rfl
  refine ⟨rfl, Grid.full_of_columns h hlen, fun i j => ?_⟩
  obtain ⟨ws, hws, hget⟩ := Grid.get?_of_columns h hlen i.isLt j.isLt
  have hid : (arg.elements.map Expr.id)[(i : Nat)]? = some (arg.elements.get i).id := by
    rw [List.getElem?_map, List.getElem?_eq_getElem (l := arg.elements) i.isLt]
    rfl
  obtain ⟨e, he, hhas⟩ := Grid.forall₂_getElem? (hws j.isLt) hid
  exact ⟨e, hget.trans he, hhas⟩

/-- **Reverse mode multiplies by the transposed Jacobian matrix.** -/
theorem reverseDerivative_yields (hexpr : ∀ e ∈ expr.elements, e ∈ pool)
    (hsmooth : ∀ e ∈ expr.elements, e.Within .smooth σ) (hcols : seed.cols = cols)
    (hseed : ∀ (k : Fin expr.numel) (j : Fin cols), ∃ e, seed.grid.get? k j = some e ∧
      pool.Has r σ e (W k j) True) :
    pool.Yields (expr.reverseDerivative arg seed) fun after m =>
      after.HasMatrix r σ m ((expr.jacobianAt arg σ)ᵀ * W) := by
  rw [reverseDerivative_eq]
  refine Pool.Yields.check_bind fun kind _ => ?_
  split
  · exact Pool.Yields.throw_bind
  dsimp only
  refine Pool.Yields.check_bind fun symbols hsymbols => ?_
  rw [symbolIds_eq_ok hsymbols]
  -- one pass for every column, as in forward mode
  have hcolumns : pool.Ensures ((List.range seed.cols).mapM fun j =>
      reverseColumn expr.elements (seed.grid.columnCells j) (arg.elements.map Expr.id)) fun after =>
      List.Forall₂ (IsWeightColumn expr arg W after r σ) (List.range seed.cols) := by
    refine Pool.Ensures.mapM (fun hle h hj => (h hj).imp fun _ _ ht => ht.of_le hle)
      fun after hle j hj => ?_
    have hj' : j < cols := hcols ▸ List.mem_range.mp hj
    refine (reverseColumn_ensures (w := fun k => W k ⟨j, hj'⟩)
      (fun e he => Pool.mem_of_le hle (hexpr e he)) hsmooth fun k => ?_).imp fun _ _ _ h _ => h
    obtain ⟨e, he, hhas⟩ := hseed k ⟨j, hj'⟩
    exact ⟨e, (Grid.getElem?_columnCells seed.grid (List.mem_range.mp hj)).trans he,
      hhas.of_le hle⟩
  refine (Pool.Yields.lift hcolumns).bind fun p₁ columns _ hcols' =>
    Pool.Yields.check fun m hm => ?_
  rw [List.length_map, hcols] at hm
  rw [hcols] at hcols'
  rw [(ofElements_eq_ok_iff.mp hm).2]
  exact hasMatrix_of_weightColumns hcols'

/-- A reverse derivative is refused unless there is one row of the seed for every element, so what
follows may rely on that. -/
theorem reverseDerivative_yields_realAt (hexpr : ∀ e ∈ expr.elements, e ∈ pool)
    (hsmooth : ∀ e ∈ expr.elements, e.Within .smooth σ) (hcols : seed.cols = cols)
    (hfull : seed.grid.Full)
    (hseed : ∀ e ∈ seed.elements, e ∈ pool ∧ e.Within r σ) :
    pool.Yields (expr.reverseDerivative arg seed) fun after m => seed.rows = expr.numel ∧
      after.HasMatrix r σ m ((expr.jacobianAt arg σ)ᵀ *
        (seed.realAt σ : Matrix (Fin expr.numel) (Fin cols) ℝ)) := by
  by_cases hrows : seed.rows = expr.numel
  · have hvalues : pool.HasMatrix r σ seed
        (seed.realAt σ : Matrix (Fin expr.numel) (Fin cols) ℝ) :=
      Pool.hasMatrix_realAt (Prod.ext hrows hcols) hfull hseed
    exact (reverseDerivative_yields hexpr hsmooth hcols hvalues.entry).imp fun _ _ _ h => ⟨hrows, h⟩
  · rw [reverseDerivative]
    refine Pool.Yields.check_bind fun kind _ => ?_
    rw [if_pos hrows]
    exact Pool.Yields.throw_bind

/-- **A reverse derivative exists if and only if it passes its checks.** -/
theorem reverseDerivative_succeeds_iff (n : Nat) :
    (∃ m, (expr.reverseDerivative arg seed n).1 = .ok m) ↔
      (∃ kind, combineKinds .directional [expr.kind, arg.kind, seed.kind] = .ok kind) ∧
        seed.rows = expr.numel ∧ ∃ symbols, arg.symbolIds = .ok symbols := by
  have hcells : ∀ symbols, (((List.range seed.cols).mapM fun j =>
      reverseColumn expr.elements (seed.grid.columnCells j) symbols) n).1.flatten.length =
          symbols.length * seed.cols := by
    intro symbols
    have hcolumns : Always ((List.range seed.cols).mapM fun j =>
        reverseColumn expr.elements (seed.grid.columnCells j) symbols)
        fun columns => ∀ ws ∈ columns, ws.length = symbols.length :=
      Always.mapM fun _ _ k => length_mapM_build _ _ _
    have hlen := Grid.length_flatten (hcolumns n)
    rwa [length_mapM_build, List.length_range] at hlen
  rw [reverseDerivative_eq]
  simp only [check_bind_run_iff, refuse_run_iff, not_not]
  constructor
  · rintro ⟨m, kind, hkind, hrows, symbols, hsymbols, _⟩
    exact ⟨⟨kind, hkind⟩, hrows, symbols, hsymbols⟩
  · rintro ⟨⟨kind, hkind⟩, hrows, symbols, hsymbols⟩
    exact ⟨_, kind, hkind, hrows, symbols, hsymbols, ofElements_eq_ok_iff.mpr ⟨hcells symbols, rfl⟩⟩

/-! ## In exact arithmetic -/

/-- **A reverse derivative evaluates to the transposed Jacobian matrix times its seed.** The
Jacobian matrix is that of the forward mode, so weighting a forward derivative comes to the same as
following a reverse derivative along its directions. -/
theorem reverseDerivative_evaluatesTo {expr arg seed result : ExprMatrix α} {cols : Nat}
    {W : Matrix (Fin expr.numel) (Fin cols) ℝ} (hexpr : ∀ e ∈ expr.elements, e ∈ pool)
    (hseedMem : ∀ e ∈ seed.elements, e ∈ pool) (hdistinct : (arg.elements.map Expr.id).Nodup)
    (hrun : (expr.reverseDerivative arg seed pool.next).1 = .ok result)
    (hsmooth : ∀ e ∈ expr.elements, e.Within .smooth σ) (hseed : seed.EvaluatesTo σ W) :
    result.EvaluatesTo σ ((expr.jacobianAt arg σ)ᵀ * W) ∧
      ∀ other : Pool α, (∀ e ∈ expr.elements, e ∈ other) →
        (∃ derivatives, (expr.jacobian arg other.next).1 = .ok derivatives ∧
          derivatives.EvaluatesTo σ (expr.jacobianAt arg σ)) ∧
        ∀ {directions forward : ExprMatrix α} {count : Nat}
          {V : Matrix (Fin arg.numel) (Fin count) ℝ}, (∀ e ∈ directions.elements, e ∈ other) →
          directions.EvaluatesTo σ V →
          (expr.forwardDerivative arg directions other.next).1 = .ok forward →
          ∃ F, forward.EvaluatesTo σ F ∧ Wᵀ * F = ((expr.jacobianAt arg σ)ᵀ * W)ᵀ * V := by
  have hcols : seed.cols = cols := (Prod.mk.inj hseed.shape).2
  constructor
  · obtain ⟨after, _, _, h⟩ := reverseDerivative_yields hexpr hsmooth hcols (hseed.has hseedMem)
    exact (h result hrun).evaluatesTo
  · intro other hother
    obtain ⟨hkinds, _, hsymbols⟩ := (reverseDerivative_succeeds_iff pool.next).mp ⟨result, hrun⟩
    refine ⟨jacobian_evaluatesTo hother hdistinct hsmooth hkinds hsymbols, ?_⟩
    intro directions forward count V hmem hV hforward
    obtain ⟨after, _, _, h⟩ := forwardDerivative_yields hother hdistinct hsmooth
      (Prod.mk.inj hV.shape).2 (hV.has hmem)
    refine ⟨expr.jacobianAt arg σ * V, (h forward hforward).evaluatesTo, ?_⟩
    rw [transpose_mul, transpose_transpose, Matrix.mul_assoc]

/-- The symbols as weights of the results. -/
def sampleWeights : ExprMatrix ℚ := column .sx [symbol 0 "x", symbol 1 "y", symbol 0 "x"]

theorem sampleWeights_mem : ∀ e ∈ sampleWeights.elements, e ∈ samplePool :=
  mem_samplePool (by simp [sampleWeights, sample, column, elements, Grid.column])

theorem sampleWeights_evaluatesTo : sampleWeights.EvaluatesTo sampleAt !![(3 : ℝ); 2; 3] where
  shape := rfl
  value k j := by fin_cases k <;> fin_cases j <;> rfl

/-- The weights of the symbols at three and two, and the rates of change under the weights of the
results. -/
theorem reverseDerivative_evaluatesTo_log :
    ∃ (reverse forward : ExprMatrix ℚ) (F : Matrix (Fin 3) (Fin 2) ℝ),
      (sampleResults.reverseDerivative sample sampleWeights 5).1 = .ok reverse ∧
      reverse.EvaluatesTo sampleAt !![(48 : ℝ); 3] ∧
      (sampleResults.forwardDerivative sample sampleDirections 5).1 = .ok forward ∧
      forward.EvaluatesTo sampleAt F ∧ !![(3 : ℝ); 2; 3]ᵀ * F = !![(150 : ℝ), 105] := by
  have hrun : ∃ reverse,
      (sampleResults.reverseDerivative sample sampleWeights 5).1 = .ok reverse :=
    (reverseDerivative_succeeds_iff _).mpr ⟨⟨.sx, rfl⟩, rfl, [0, 1], rfl⟩
  obtain ⟨reverse, hrun⟩ := hrun
  obtain ⟨forward, hforward⟩ := sampleDirections_run
  obtain ⟨hvalue, hother⟩ := reverseDerivative_evaluatesTo sampleResults_mem sampleWeights_mem
    sample_distinct hrun sampleResults_smooth sampleWeights_evaluatesTo
  obtain ⟨_, hpairing⟩ := hother samplePool sampleResults_mem
  obtain ⟨F, hF, hweighted⟩ :=
    hpairing sampleDirections_mem sampleDirections_evaluatesTo hforward
  have hproduct : !![(6 : ℝ), 1 / 2; 6, 0; 6, 1 / 2]ᵀ * !![(3 : ℝ); 2; 3] = !![(48 : ℝ); 3] := by
    ext i j
    fin_cases i <;> fin_cases j <;> rw [Matrix.mul_apply, Fin.sum_univ_three]
    · show (6 : ℝ) * 3 + 6 * 2 + 6 * 3 = 48
      norm_num
    · show (1 / 2 : ℝ) * 3 + 0 * 2 + 1 / 2 * 3 = 3
      norm_num
  have hpaired : !![(48 : ℝ); 3]ᵀ * !![(3 : ℝ), 2; 2, 3] = !![(150 : ℝ), 105] := by
    ext i j
    fin_cases i
    fin_cases j <;> norm_num [Matrix.mul_apply, Fin.sum_univ_two]
  rw [sampleResults_jacobianAt] at hvalue hweighted
  refine ⟨reverse, forward, F, hrun, hproduct ▸ hvalue, hforward, hF, hweighted.trans ?_⟩
  exact (congrArg (fun M : Matrix (Fin 2) (Fin 1) ℝ => Mᵀ * !![(3 : ℝ), 2; 2, 3]) hproduct).trans
    hpaired

end ExprMatrix

end ExplicitOde
