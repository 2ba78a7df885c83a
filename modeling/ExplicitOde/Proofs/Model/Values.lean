import ExplicitOde.Proofs.Model.Sensitivity

/-!
# What the functions of a model evaluate to

The derivatives of the rates by states and controls are defined on the rates as trees. A model that
has functions has them of these derivatives, at every point where its rates are smooth.

Nothing is assumed of the parts of a model but that they are whole matrices of nodes that exist;
that states, controls and parameters are distinct symbols, and that their numbers fit, is seen to
when the functions are built.
-/

namespace ExplicitOde

open ExplicitOde.Expr Matrix SymbolicFunction

variable {α : Type}

/-! ## Derivatives of the rates -/

namespace Model

/-- The parts of a model are whole, and the rates are made of nodes that exist. -/
structure Formed (m : Model α) (pool : Pool α) : Prop where
  states : m.x.grid.Full
  controls : m.u.grid.Full
  mem : ∀ e ∈ m.rate.elements, e ∈ pool

/-- The parameters of a model; none if they are given as no separate matrices at all. -/
def parameters (m : Model α) : ExprMatrix α :=
  match m.p with
  | .symbolic p => p
  | .separate _ => ⟨.dm, ⟨0, 0, []⟩⟩

/-- The identities of states and controls. -/
def coordinate (m : Model α) : Fin m.x.numel ⊕ Fin m.u.numel → Nat :=
  Sum.elim (fun i => (m.x.elements.get i).id) fun i => (m.u.elements.get i).id

variable [ExactScalar α]

/-- The gradient of the weighted sum of the rates by states and controls. -/
noncomputable def gradientAt (m : Model α) (σ : Nat → ℝ) (weight : Fin m.rate.numel → ℝ) :
    Fin m.x.numel ⊕ Fin m.u.numel → ℝ :=
  fun k => ∑ l, ((m.rate.elements.get l).diff (m.coordinate k)).real σ * weight l

/-- The second derivatives of the weighted sum of the rates by states and controls. -/
noncomputable def hessianAt (m : Model α) (σ : Nat → ℝ) (weight : Fin m.rate.numel → ℝ) :
    Matrix (Fin m.x.numel ⊕ Fin m.u.numel) (Fin m.x.numel ⊕ Fin m.u.numel) ℝ :=
  Matrix.of fun i k =>
    ∑ l, (((m.rate.elements.get l).diff (m.coordinate i)).diff (m.coordinate k)).real σ * weight l

end Model

/-! ## What is built -/

/-- The matrices that are made for a model. -/
structure Parts (α : Type) where
  p : ExprMatrix α
  sx : ExprMatrix α
  sp : ExprMatrix α
  lambda : ExprMatrix α
  byState : ExprMatrix α
  byControl : ExprMatrix α
  gradient : ExprMatrix α
  /-- States and controls in one column. -/
  xu : ExprMatrix α
  directions : ExprMatrix α
  /-- The projected second derivatives, of which the lower triangle is handed out. -/
  projected : ExprMatrix α
  column : ExprMatrix α

/-- The functions of a model are made of these matrices, and these are of its dimensions. -/
structure Model.Built (m : Model α) (s : Sensitivities (SymbolicFunction α)) (parts : Parts α) :
    Prop where
  states : m.x.numel = m.x.rows
  controls : m.u.numel = m.u.rows
  rates : m.rate.numel = m.x.rows
  sx_shape : parts.sx.shape = (m.x.rows, m.x.rows)
  sp_shape : parts.sp.shape = (m.x.rows, m.u.rows)
  lambda_shape : parts.lambda.shape = (m.x.rows, 1)
  full : parts.sx.grid.Full ∧ parts.sp.grid.Full ∧ parts.lambda.grid.Full
  value : s.value.MadeOf (FunctionKind.value.functionName m.name) [m.x, m.u, parts.p] [m.rate]
  forward : s.forward.MadeOf (FunctionKind.forward.functionName m.name)
    [m.x, parts.sx, parts.sp, m.u, parts.p] [m.rate, parts.byState, parts.byControl]
  adjoint : s.adjoint.MadeOf (FunctionKind.adjoint.functionName m.name)
    [m.x, parts.lambda, m.u, parts.p] [parts.gradient]
  hessian : s.hessian.MadeOf (FunctionKind.hessian.functionName m.name)
    [m.x, parts.sx, parts.sp, parts.lambda, m.u, parts.p] [parts.gradient, parts.column]

variable [ExactScalar α] {σ : Nat → ℝ} {pool : Pool α} {m : Model α}

/-- The second-order function hands out the lower triangle of the matrix that the projection of the
second derivatives gave. -/
structure Model.Flattened (m : Model α) (s : Sensitivities (SymbolicFunction α)) (parts : Parts α) :
    Prop where
  inputs : s.hessian.inputs = [m.x, parts.sx, parts.sp, parts.lambda, m.u, parts.p]
  outputs : s.hessian.outputs = [parts.gradient, parts.column]
  xu : ExprMatrix.above [m.x, m.u] = .ok parts.xu
  directions : ∃ kind n,
    (stackedDirections kind m.x.rows m.u.rows parts.sx parts.sp n).1 = .ok parts.directions
  projected : ∃ n,
    (projectedHessian parts.directions parts.gradient parts.xu n).1 = .ok parts.projected
  column : ∃ kind n,
    (hessianColumn kind (m.x.rows + m.u.rows) parts.projected n).1 = .ok parts.column

/-- The weights on the rates. -/
noncomputable def Parts.weightAt (parts : Parts α) (m : Model α) (σ : Nat → ℝ) :
    Fin m.rate.numel → ℝ :=
  fun l => parts.lambda.realAt σ l (0 : Fin 1)

/-- The directions in which states and controls move. -/
noncomputable def Parts.directionsAt (parts : Parts α) (m : Model α) (σ : Nat → ℝ) :
    Matrix (Fin m.x.numel ⊕ Fin m.u.numel) (Fin m.x.numel ⊕ Fin m.u.numel) ℝ :=
  stacked (parts.sx.realAt σ) (parts.sp.realAt σ)

/-- The second derivatives of the weighted sum of the rates, projected on the directions from both
sides. -/
noncomputable def Parts.projectedAt (parts : Parts α) (m : Model α) (σ : Nat → ℝ) :
    Matrix (Fin m.x.numel ⊕ Fin m.u.numel) (Fin m.x.numel ⊕ Fin m.u.numel) ℝ :=
  (parts.directionsAt m σ)ᵀ * m.hessianAt σ (parts.weightAt m σ) * parts.directionsAt m σ

/-- The matrices that are made for a model have the values that they are made for. -/
structure Model.Valued (m : Model α) (pool : Pool α) (σ : Nat → ℝ) (parts : Parts α) : Prop where
  byState : pool.HasMatrix .smooth σ parts.byState
    (m.rate.jacobianAt m.x σ * (parts.sx.realAt σ : Matrix _ (Fin m.x.rows) ℝ))
  byControl : pool.HasMatrix .smooth σ parts.byControl
    (m.rate.jacobianAt m.u σ + m.rate.jacobianAt m.x σ * parts.sp.realAt σ)
  gradient : pool.HasMatrix .smooth σ parts.gradient
    (Matrix.of fun k (_ : Fin 1) => m.gradientAt σ (parts.weightAt m σ) (finSumFinEquiv.symm k))
  column : pool.HasMatrix .smooth σ parts.column (parts.column.realAt σ :
    Matrix (Fin ((m.x.numel + m.u.numel) * (m.x.numel + m.u.numel + 1) / 2)) (Fin 1) ℝ)
  /-- The lower triangle of the projected second derivatives, column by column. -/
  lower : ∀ i j : Fin (m.x.numel + m.u.numel), j ≤ i →
    (parts.column.grid.get? (j * (m.x.numel + m.u.numel) - j * (j - 1) / 2 + (i - j)) 0).map
        (Expr.real σ) =
      some (((parts.directionsAt m σ)ᵀ * m.hessianAt σ (parts.weightAt m σ) *
        parts.directionsAt m σ) (finSumFinEquiv.symm i) (finSumFinEquiv.symm j))

/-! ## States and controls in one column -/

section Stacked

variable {xu lambda gradient : ExprMatrix α}

omit [ExactScalar α] in
theorem numel_stacked (hxu : xu.elements = m.x.elements ++ m.u.elements) :
    m.x.numel + m.u.numel = xu.numel := by
  have hlen := congrArg List.length hxu
  rw [List.length_append] at hlen
  exact hlen.symm

omit [ExactScalar α] in
/-- Controls follow states. -/
theorem id_stacked (hxu : xu.elements = m.x.elements ++ m.u.elements)
    (k : Fin (m.x.numel + m.u.numel)) (hk : (k : Nat) < xu.numel) :
    (xu.elements.get ⟨k, hk⟩).id = m.coordinate (finSumFinEquiv.symm k) := by
  have hget : (m.x.elements ++ m.u.elements)[(k : Nat)]? = some (xu.elements.get ⟨k, hk⟩) :=
    (congrArg (·[(k : Nat)]?) hxu.symm).trans (List.getElem?_eq_getElem hk)
  generalize xu.elements.get ⟨k, hk⟩ = e at hget ⊢
  -- a place in the column is that of a state or, behind all states, that of a control
  obtain ⟨l, rfl⟩ := finSumFinEquiv.surjective k
  rw [Equiv.symm_apply_apply]
  cases l with
  | inl i =>
      have hi : (finSumFinEquiv (Sum.inl i) : Fin (m.x.numel + m.u.numel)).val = i := rfl
      have hlt : (i : Nat) < m.x.elements.length := i.isLt
      rw [hi, List.getElem?_append_left hlt, List.getElem?_eq_getElem hlt] at hget
      exact congrArg Expr.id (Option.some.inj hget).symm
  | inr i =>
      have hi : (finSumFinEquiv (Sum.inr i) : Fin (m.x.numel + m.u.numel)).val =
          m.x.numel + i := rfl
      have hge : m.x.elements.length ≤ m.x.numel + i := Nat.le_add_right _ _
      have hsub : m.x.numel + (i : Nat) - m.x.elements.length = i := Nat.add_sub_cancel_left _ _
      have hlt : (i : Nat) < m.u.elements.length := i.isLt
      rw [hi, List.getElem?_append_right hge, hsub, List.getElem?_eq_getElem hlt] at hget
      exact congrArg Expr.id (Option.some.inj hget).symm

omit [ExactScalar α] in
theorem elements_stacked (hx : m.x.grid.Full ∧ m.x.grid.Narrow)
    (hu : m.u.grid.Full ∧ m.u.grid.Narrow) (habove : ExprMatrix.above [m.x, m.u] = .ok xu) :
    xu.elements = m.x.elements ++ m.u.elements := by
  have hparts : ∀ part ∈ [m.x, m.u], part.grid.Full ∧ part.grid.Narrow :=
    List.forall_mem_cons.mpr ⟨hx, List.forall_mem_singleton.mpr hu⟩
  simpa using (ExprMatrix.elements_above hparts habove).1

omit [ExactScalar α] in
/-- No weight is a state or a control, where they are inputs of one function. -/
theorem weights_ne_stacked {p : ExprMatrix α} {outputs : List (ExprMatrix α)}
    (h : Accepted [m.x, lambda, m.u, p] outputs)
    (hxu : xu.elements = m.x.elements ++ m.u.elements) :
    ∀ e ∈ lambda.elements, ∀ v ∈ xu.elements, e.id ≠ v.id := by
  have hbefore : ∀ v ∈ m.x.elements, ∀ e ∈ lambda.elements, v.id ≠ e.id :=
    h.ne_of_sublist (by simp [inputElements])
  have hafter : ∀ e ∈ lambda.elements, ∀ v ∈ m.u.elements, e.id ≠ v.id := by
    refine h.ne_of_sublist ?_
    rw [inputElements_cons]
    refine List.Sublist.trans ?_ (List.sublist_append_right _ _)
    simp [inputElements]
  intro e he v hv
  rw [hxu] at hv
  rcases List.mem_append.mp hv with hv | hv
  · exact (hbefore v hv e he).symm
  · exact hafter e he v hv

/-- The reverse derivative of the rates is the gradient of their weighted sum. -/
theorem gradientAt_eq (hxu : xu.elements = m.x.elements ++ m.u.elements) (σ : Nat → ℝ)
    (weight : Fin m.rate.numel → ℝ) :
    ((m.rate.jacobianAt xu σ)ᵀ * Matrix.of fun l (_ : Fin 1) => weight l).submatrix
        (Fin.cast (numel_stacked hxu)) (Fin.cast rfl) =
      Matrix.of fun k (_ : Fin 1) => m.gradientAt σ weight (finSumFinEquiv.symm k) := by
  ext k j
  rw [submatrix_apply, mul_apply, of_apply, Model.gradientAt]
  refine Finset.sum_congr rfl fun l _ => ?_
  have hid := id_stacked hxu k (k.isLt.trans_eq (numel_stacked hxu))
  rw [← hid]
  rfl

/-- The gradient that is built has the gradient of the weighted sum of the rates as its value. -/
theorem hasMatrix_gradientAt (hxu : xu.elements = m.x.elements ++ m.u.elements)
    (h : pool.HasMatrix .smooth σ gradient ((m.rate.jacobianAt xu σ)ᵀ *
      (lambda.realAt σ : Matrix (Fin m.rate.numel) (Fin 1) ℝ))) :
    pool.HasMatrix .smooth σ gradient (Matrix.of fun k (_ : Fin 1) =>
      m.gradientAt σ (fun l => lambda.realAt σ l (0 : Fin 1)) (finSumFinEquiv.symm k)) := by
  have hweight : (lambda.realAt σ : Matrix (Fin m.rate.numel) (Fin 1) ℝ) =
      Matrix.of fun l _ => lambda.realAt σ l (0 : Fin 1) := by
    ext l j
    rw [Subsingleton.elim j 0, of_apply]
  have hcast := h.cast (numel_stacked hxu) rfl
  rwa [hweight, gradientAt_eq hxu] at hcast

/-- The derivatives of the gradient are the second derivatives of the weighted sum. -/
theorem hessianAt_eq (hxu : xu.elements = m.x.elements ++ m.u.elements)
    (hnumel : m.x.numel + m.u.numel = gradient.numel) {weight : Fin m.rate.numel → ℝ}
    (h : ∀ (k : Fin gradient.numel) (hk : (k : Nat) < xu.numel) (i : Fin xu.numel),
      gradient.jacobianAt xu σ k i = ∑ l, (((m.rate.elements.get l).diff
        (xu.elements.get ⟨k, hk⟩).id).diff (xu.elements.get i).id).real σ * weight l)
    (i k : Fin (m.x.numel + m.u.numel)) :
    gradient.jacobianAt xu σ (Fin.cast hnumel i) (Fin.cast (numel_stacked hxu) k) =
      (m.hessianAt σ weight).submatrix finSumFinEquiv.symm finSumFinEquiv.symm i k := by
  have hi := id_stacked hxu i (i.isLt.trans_eq (numel_stacked hxu))
  have hk := id_stacked hxu k (k.isLt.trans_eq (numel_stacked hxu))
  rw [h _ (i.isLt.trans_eq (numel_stacked hxu)), submatrix_apply, Model.hessianAt, of_apply, ← hi,
    ← hk]
  rfl

end Stacked

/-! ## All functions -/

/-- A matrix of symbols is regular. -/
theorem within_of_isSymbol {e : Expr α} (h : e.isSymbol = true) (r : Regularity) (σ : Nat → ℝ) :
    e.Within r σ := by
  cases e with
  | symbol => trivial
  | const | unary | binary => exact Bool.noConfusion h

/-- The values of symbols at which the rates of a model are smooth. -/
abbrev Model.Smooth (m : Model α) := { τ : Nat → ℝ // ∀ e ∈ m.rate.elements, e.Within .smooth τ }

/-- The matrix that is flattened has the projected second derivatives as its values, wherever the
rates are smooth. -/
def Model.Projected (m : Model α) (parts : Parts α) : Prop :=
  ∀ τ : m.Smooth, ∃ other : Pool α, other.HasMatrix .smooth τ parts.projected
    ((parts.projectedAt m τ).submatrix finSumFinEquiv.symm finSumFinEquiv.symm)

/-! ## From the gradient to its projected derivatives -/

section Projection

variable {after : Pool α} {sx sp lambda gradient xu : ExprMatrix α}

/-- The gradient was built, of distinct symbols for states, controls and weights, and there are
directions of fitting shapes. -/
structure Model.Prepared (m : Model α) (pool : Pool α) (sx sp lambda xu gradient : ExprMatrix α) :
    Prop where
  states : m.x.numel = m.x.rows
  controls : m.u.numel = m.u.rows
  stateDirections : ∀ τ : Nat → ℝ, pool.HasMatrix .smooth τ sx
    (sx.realAt τ : Matrix (Fin m.x.numel) (Fin m.x.numel) ℝ)
  controlDirections : ∀ τ : Nat → ℝ, pool.HasMatrix .smooth τ sp
    (sp.realAt τ : Matrix (Fin m.x.numel) (Fin m.u.numel) ℝ)
  weights : ∀ e ∈ lambda.elements, e.isSymbol = true
  column : xu.elements = m.x.elements ++ m.u.elements
  distinct : (xu.elements.map Expr.id).Nodup
  other : ∀ e ∈ lambda.elements, ∀ v ∈ xu.elements, e.id ≠ v.id
  mem : ∀ e ∈ gradient.elements, e ∈ pool
  numel : m.x.numel + m.u.numel = gradient.numel
  /-- The gradient is known by its value, wherever the rates are smooth. -/
  gradient : ∀ τ : m.Smooth, ∃ other : Pool α, other.HasMatrix .smooth τ gradient
    ((m.rate.jacobianAt xu τ)ᵀ * (lambda.realAt τ : Matrix (Fin m.rate.numel) (Fin 1) ℝ))

theorem Model.Prepared.of_le (h : m.Prepared pool sx sp lambda xu gradient) (hle : pool ≤ after) :
    m.Prepared after sx sp lambda xu gradient :=
  { h with
    stateDirections := fun τ => (h.stateDirections τ).of_le hle
    controlDirections := fun τ => (h.controlDirections τ).of_le hle
    mem := fun e he => Pool.mem_of_le hle (h.mem e he) }

/-- Wherever the directions have their values, the projection of the second derivatives has its
own. -/
theorem Model.Prepared.projected_yields (h : m.Prepared pool sx sp lambda xu gradient)
    (τ : m.Smooth) {directions : ExprMatrix α}
    {D : Matrix (Fin m.x.numel ⊕ Fin m.u.numel) (Fin m.x.numel ⊕ Fin m.u.numel) ℝ}
    (hmem : ∀ e ∈ directions.elements, e ∈ pool)
    (hdirections : ∃ other : Pool α, other.HasMatrix .smooth τ directions
      (D.submatrix finSumFinEquiv.symm finSumFinEquiv.symm)) :
    pool.Yields (projectedHessian directions gradient xu) fun after projected =>
      after.HasMatrix .smooth τ projected
        ((Dᵀ * m.hessianAt τ (fun l => lambda.realAt τ l (0 : Fin 1)) * D).submatrix
          finSumFinEquiv.symm finSumFinEquiv.symm) := by
  obtain ⟨_, hgradient⟩ := h.gradient τ
  obtain ⟨_, hdirections⟩ := hdirections
  have hsecond := hessianAt_eq h.column h.numel
    (jacobianAt_gradient τ.2 h.weights h.other h.gradient)
  refine (projectedHessian_yields (fun e he => ⟨h.mem e he, (hgradient.mem e he).2⟩) h.distinct
    (numel_stacked h.column) h.numel (hdirections.of_mem hmem) hsecond).imp fun _ _ _ hvalue => ?_
  rwa [transpose_submatrix, submatrix_mul_equiv, submatrix_mul_equiv] at hvalue

/-- The matrices of the second-order function, at the end of the way to them. -/
structure Model.Finished (m : Model α) (pool : Pool α) (σ : Nat → ℝ) (parts : Parts α) :
    Prop where
  directions : ∃ kind n,
    (stackedDirections kind m.x.rows m.u.rows parts.sx parts.sp n).1 = .ok parts.directions
  projected : ∃ n,
    (projectedHessian parts.directions parts.gradient parts.xu n).1 = .ok parts.projected
  column : ∃ kind n,
    (hessianColumn kind (m.x.rows + m.u.rows) parts.projected n).1 = .ok parts.column
  values : m.Projected parts
  hasColumn : pool.HasMatrix .smooth σ parts.column (parts.column.realAt σ :
    Matrix (Fin ((m.x.numel + m.u.numel) * (m.x.numel + m.u.numel + 1) / 2)) (Fin 1) ℝ)
  lower : ∀ i j : Fin (m.x.numel + m.u.numel), j ≤ i →
    (parts.column.grid.get? (j * (m.x.numel + m.u.numel) - j * (j - 1) / 2 + (i - j)) 0).map
        (Expr.real σ) =
      some (parts.projectedAt m σ (finSumFinEquiv.symm i) (finSumFinEquiv.symm j))

/-- **From the gradient to the lower triangle.** What follows has the matrices with their values. -/
theorem Model.Prepared.bind (h : m.Prepared pool sx sp lambda xu gradient)
    (hsmooth : ∀ e ∈ m.rate.elements, e.Within .smooth σ) (p byState byControl : ExprMatrix α)
    {β : Type} {kind : Kind}
    {f : ExprMatrix α → ExprMatrix α → ExprMatrix α → Attempt AlgebraError β}
    {post : Pool α → β → Prop}
    (hf : ∀ (after : Pool α) (directions projected column : ExprMatrix α), pool ≤ after →
      m.Finished after σ ⟨p, sx, sp, lambda, byState, byControl, gradient, xu, directions,
        projected, column⟩ →
      after.Yields (f directions projected column) post) :
    pool.Yields (stackedDirections kind m.x.rows m.u.rows sx sp >>= fun directions =>
      projectedHessian directions gradient xu >>= fun projected =>
        hessianColumn kind (m.x.rows + m.u.rows) projected >>= f directions projected) post := by
  rw [← h.states, ← h.controls]
  -- at `σ` and at all other places where the rates are smooth
  refine ((stackedDirections_yields (h.stateDirections σ) (h.controlDirections σ)).and_forall
    fun τ : m.Smooth => stackedDirections_yields (h.stateDirections τ)
      (h.controlDirections τ)).run.bind
        fun p₁ directions hle₁ ⟨⟨hdirections, hdirectionsAt⟩, hdirectionsRun⟩ => ?_
  have hprojectedAt := fun τ : m.Smooth => (h.of_le hle₁).projected_yields τ
    (fun e he => (hdirections.mem e he).1) (hdirectionsAt τ)
  refine ((hprojectedAt ⟨σ, hsmooth⟩).and_forall hprojectedAt).run.bind
    fun p₂ projected hle₂ ⟨⟨hprojected, hprojectedAt⟩, hprojectedRun⟩ => ?_
  refine (hessianColumn_yields hprojected).run.bind
    fun p₃ column hle₃ ⟨⟨hcolumn, hlower⟩, hcolumnRun⟩ => ?_
  refine hf p₃ directions projected column (Pool.le_trans hle₁ (Pool.le_trans hle₂ hle₃))
    ⟨?_, ⟨_, hprojectedRun⟩, ?_, hprojectedAt, hcolumn, hlower⟩
  · rw [← h.states, ← h.controls]
    exact ⟨_, _, hdirectionsRun⟩
  · rw [← h.states, ← h.controls]
    exact ⟨_, _, hcolumnRun⟩

end Projection

/-! ## Before the gradient -/

section Beginning

variable {β : Type} {after : Pool α} {kind : Kind} {p sx sp lambda : ExprMatrix α}
  {post : Pool α → β → Prop}

/-- There are new symbols for the directions of states and controls and for weights, beside the
rates of the model. -/
structure Model.Begun (m : Model α) (pool : Pool α) (sx sp lambda : ExprMatrix α) : Prop where
  rates : ∀ e ∈ m.rate.elements, e ∈ pool
  sx_shape : sx.shape = (m.x.rows, m.x.rows)
  sp_shape : sp.shape = (m.x.rows, m.u.rows)
  lambda_shape : lambda.shape = (m.x.rows, 1)
  full : sx.grid.Full ∧ sp.grid.Full ∧ lambda.grid.Full
  stateDirections : ∀ e ∈ sx.elements, e ∈ pool ∧ e.isSymbol = true
  controlDirections : ∀ e ∈ sp.elements, e ∈ pool ∧ e.isSymbol = true
  weights : ∀ e ∈ lambda.elements, e ∈ pool ∧ e.isSymbol = true

omit [ExactScalar α] in
theorem Model.Begun.of_le (h : m.Begun pool sx sp lambda) (hle : pool ≤ after) :
    m.Begun after sx sp lambda :=
  { h with
    rates := fun e he => Pool.mem_of_le hle (h.rates e he)
    stateDirections := fun e he => (h.stateDirections e he).imp_left (Pool.mem_of_le hle)
    controlDirections := fun e he => (h.controlDirections e he).imp_left (Pool.mem_of_le hle)
    weights := fun e he => (h.weights e he).imp_left (Pool.mem_of_le hle) }

omit [ExactScalar α] in
/-- The new symbols are made first. -/
theorem Model.Formed.begin_bind (hm : m.Formed pool)
    {f : ExprMatrix α → ExprMatrix α → ExprMatrix α → Attempt AlgebraError β}
    (hf : ∀ (after : Pool α) (sx sp lambda : ExprMatrix α), pool ≤ after →
      m.Begun after sx sp lambda → after.Yields (f sx sp lambda) post) :
    pool.Yields (do
      let sx ← ExprMatrix.symbols kind "Sx" m.x.rows m.x.rows
      let sp ← ExprMatrix.symbols kind "Sp" m.x.rows m.u.rows
      let lambda ← ExprMatrix.symbols kind "lambdaX" m.x.rows 1
      f sx sp lambda : Attempt AlgebraError β) post := by
  refine (Pool.Yields.lift (symbols_ensures _ "Sx" m.x.rows m.x.rows)).bind
    fun p₁ sx hle₁ ⟨_, hsxShape, hsxFull, hsx⟩ => ?_
  refine (Pool.Yields.lift (symbols_ensures _ "Sp" m.x.rows m.u.rows)).bind
    fun p₂ sp hle₂ ⟨_, hspShape, hspFull, hsp⟩ => ?_
  refine (Pool.Yields.lift (symbols_ensures _ "lambdaX" m.x.rows 1)).bind
    fun p₃ lambda hle₃ ⟨_, hlambdaShape, hlambdaFull, hlambda⟩ => ?_
  have hle := Pool.le_trans hle₁ (Pool.le_trans hle₂ hle₃)
  refine hf p₃ sx sp lambda hle
    ⟨fun e he => Pool.mem_of_le hle (hm.mem e he), hsxShape, hspShape, hlambdaShape,
      ⟨hsxFull, hspFull, hlambdaFull⟩, fun e he => ?_, fun e he => ?_, hlambda⟩
  · exact (hsx e he).imp_left (Pool.mem_of_le (Pool.le_trans hle₂ hle₃))
  · exact (hsp e he).imp_left (Pool.mem_of_le hle₃)

/-- **The first derivatives** have their values, and they are defined only if the dimensions of the
model fit. -/
theorem Model.Begun.forward_bind (h : m.Begun pool sx sp lambda)
    (hsmooth : ∀ e ∈ m.rate.elements, e.Within .smooth σ)
    (hxu : ((m.x.elements ++ m.u.elements).map Expr.id).Nodup)
    {f : SymbolicFunction α → Attempt AlgebraError β}
    (hf : ∀ (after : Pool α) (byState byControl : ExprMatrix α) (forward : SymbolicFunction α),
      pool ≤ after → m.x.numel = m.x.rows → m.u.numel = m.u.rows → m.rate.numel = m.x.rows →
      after.HasMatrix .smooth σ byState
        (m.rate.jacobianAt m.x σ * (sx.realAt σ : Matrix _ (Fin m.x.rows) ℝ)) →
      after.HasMatrix .smooth σ byControl
        (m.rate.jacobianAt m.u σ + m.rate.jacobianAt m.x σ * sp.realAt σ) →
      forward.MadeOf (FunctionKind.forward.functionName m.name) [m.x, sx, sp, m.u, p]
        [m.rate, byState, byControl] →
      after.Yields (f forward) post) :
    pool.Yields (do
      let byState ← stateSensitivity kind m.x.rows m.rate m.x sx
      let byControl ← controlSensitivity kind m.x.rows m.u.rows m.rate m.x m.u sp
      let forward ← SymbolicFunction.make (FunctionKind.forward.functionName m.name)
        [m.x, sx, sp, m.u, p] [m.rate, byState, byControl]
      f forward : Attempt AlgebraError β) post := by
  have hx : (m.x.elements.map Expr.id).Nodup := hxu.sublist ((List.sublist_append_left _ _).map _)
  have hu : (m.u.elements.map Expr.id).Nodup := hxu.sublist ((List.sublist_append_right _ _).map _)
  have hwithin : ∀ {e : Expr α} {p : Pool α}, e ∈ p ∧ e.isSymbol = true →
      e ∈ p ∧ e.Within .smooth σ := fun he => ⟨he.1, within_of_isSymbol he.2 _ σ⟩
  refine (stateSensitivity_yields h.rates hsmooth hx h.sx_shape h.full.1
    fun e he => hwithin (h.stateDirections e he)).bind
      fun p₁ byState hle₁ ⟨hstates, hrates, hbyState⟩ => ?_
  have h₁ := h.of_le hle₁
  refine (controlSensitivity_yields h₁.rates hsmooth hx hu h.sp_shape h.full.2.1
    fun e he => hwithin (h₁.controlDirections e he)).bind
      fun p₂ byControl hle₂ ⟨hcontrols, hbyControl⟩ => ?_
  have hbyState := hbyState.of_le hle₂
  refine Pool.Yields.check_bind fun forward hforward => ?_
  have hmem : ∀ e ∈ outputElements [m.rate, byState, byControl], e ∈ p₂ :=
    forall_mem_outputElements.mpr (List.forall_mem_cons.mpr ⟨(h₁.of_le hle₂).rates,
      List.forall_mem_cons.mpr ⟨fun e he => (hbyState.mem e he).1,
        List.forall_mem_singleton.mpr fun e he => (hbyControl.mem e he).1⟩⟩)
  exact hf p₂ byState byControl forward (Pool.le_trans hle₁ hle₂) hstates hcontrols hrates hbyState
    hbyControl (make_ok hmem hforward)

/-- **The gradient** has its value, and all is prepared for its derivatives. -/
theorem Model.Begun.adjoint_bind (h : m.Begun pool sx sp lambda)
    (hfull : m.x.grid.Full ∧ m.u.grid.Full) (hstates : m.x.numel = m.x.rows)
    (hcontrols : m.u.numel = m.u.rows) (hsmooth : ∀ e ∈ m.rate.elements, e.Within .smooth σ)
    (hxu : ((m.x.elements ++ m.u.elements).map Expr.id).Nodup)
    {f : ExprMatrix α → ExprMatrix α → SymbolicFunction α → Attempt AlgebraError β}
    (hf : ∀ (after : Pool α) (xu gradient : ExprMatrix α) (adjoint : SymbolicFunction α),
      pool ≤ after → ExprMatrix.above [m.x, m.u] = .ok xu →
      m.Prepared after sx sp lambda xu gradient →
      after.HasMatrix .smooth σ gradient (Matrix.of fun k (_ : Fin 1) =>
        m.gradientAt σ (fun l => lambda.realAt σ l (0 : Fin 1)) (finSumFinEquiv.symm k)) →
      adjoint.MadeOf (FunctionKind.adjoint.functionName m.name) [m.x, lambda, m.u, p] [gradient] →
      after.Yields (f xu gradient adjoint) post) :
    pool.Yields (do
      let xu ← ExprMatrix.above [m.x, m.u]
      let gradient ← m.rate.reverseDerivative xu lambda
      let adjoint ← SymbolicFunction.make (FunctionKind.adjoint.functionName m.name)
        [m.x, lambda, m.u, p] [gradient]
      f xu gradient adjoint : Attempt AlgebraError β) post := by
  refine Pool.Yields.check_bind fun xu habove => ?_
  have hxuElements := elements_stacked ⟨hfull.1, hstates⟩ ⟨hfull.2, hcontrols⟩ habove
  refine (gradient_yields h.rates hsmooth (Prod.mk.inj h.lambda_shape).2 h.full.2.2
    h.weights).bind fun p₁ gradient hle ⟨⟨_, hgradient⟩, hnear⟩ => ?_
  refine Pool.Yields.check_bind fun adjoint hadjoint => ?_
  have hmem : ∀ e ∈ gradient.elements, e ∈ p₁ := fun e he => (hgradient.mem e he).1
  have hadjoint := make_ok
    (forall_mem_outputElements.mpr (List.forall_mem_singleton.mpr hmem)) hadjoint
  have hsxShape : sx.shape = (m.x.numel, m.x.numel) := by rw [hstates, h.sx_shape]
  have hspShape : sp.shape = (m.x.numel, m.u.numel) := by rw [hstates, hcontrols, h.sp_shape]
  have hwithin : ∀ {e : Expr α}, e ∈ pool ∧ e.isSymbol = true → ∀ τ : Nat → ℝ,
      e ∈ p₁ ∧ e.Within .smooth τ := fun he τ =>
    ⟨Pool.mem_of_le hle he.1, within_of_isSymbol he.2 _ τ⟩
  refine hf p₁ xu gradient adjoint hle habove ?_ (hasMatrix_gradientAt hxuElements hgradient)
    hadjoint
  exact
    { states := hstates
      controls := hcontrols
      stateDirections := fun τ => Pool.hasMatrix_realAt hsxShape h.full.1 fun e he =>
        hwithin (h.stateDirections e he) τ
      controlDirections := fun τ => Pool.hasMatrix_realAt hspShape h.full.2.1 fun e he =>
        hwithin (h.controlDirections e he) τ
      weights := fun e he => (h.weights e he).2
      column := hxuElements
      distinct := hxuElements ▸ hxu
      other := weights_ne_stacked hadjoint.accepted hxuElements
      mem := hmem
      numel := (numel_stacked hxuElements).trans hgradient.numel_column.symm
      gradient := hnear }

end Beginning

/-- What is built for a model has the values that it is built for. -/
theorem buildFunctions_yields {resolved : ResolvedModel α} (hm : m.Formed pool)
    (hnx : resolved.nx = m.x.rows) (hnu : resolved.nu = m.u.rows)
    (hsmooth : ∀ e ∈ m.rate.elements, e.Within .smooth σ) :
    pool.Yields (buildFunctions m resolved) fun after s =>
      ∃ parts, parts.p = resolved.p ∧ m.Built s parts ∧ m.Valued after σ parts ∧
        m.Flattened s parts ∧ m.Projected parts := by
  unfold buildFunctions
  dsimp only
  rw [hnx, hnu]
  refine hm.begin_bind fun p₁ sx sp lambda _ hbegun => ?_
  refine Pool.Yields.check_bind fun value hvalue => ?_
  have hvalue := make_ok
    (forall_mem_outputElements.mpr (List.forall_mem_singleton.mpr hbegun.rates)) hvalue
  -- a function of these inputs was made, so their symbols are distinct
  have hxu : ((m.x.elements ++ m.u.elements).map Expr.id).Nodup := by
    refine hvalue.accepted.nodup_of_sublist ?_
    simp [inputElements]
  refine hbegun.forward_bind hsmooth hxu fun p₂ byState byControl forward hle₂ hstates hcontrols
    hrates hbyState hbyControl hforward => ?_
  refine (hbegun.of_le hle₂).adjoint_bind ⟨hm.states, hm.controls⟩ hstates hcontrols hsmooth
    hxu fun p₃ xu gradient adjoint hle₃ habove hprepared hgradient hadjoint => ?_
  refine hprepared.bind hsmooth resolved.p byState byControl fun p₄ directions projected column hle₄
    hfinished => ?_
  refine Pool.Yields.check_bind fun hessian hhessian => Pool.Yields.pure ?_
  have hgradient := hgradient.of_le hle₄
  have hmem : ∀ e ∈ outputElements [gradient, column], e ∈ p₄ :=
    forall_mem_outputElements.mpr (List.forall_mem_cons.mpr ⟨fun e he => (hgradient.mem e he).1,
      List.forall_mem_singleton.mpr fun e he => (hfinished.hasColumn.mem e he).1⟩)
  have hhessian := make_ok hmem hhessian
  have hle := Pool.le_trans hle₃ hle₄
  refine ⟨_, rfl, ⟨hstates, hcontrols, hrates, hbegun.sx_shape, hbegun.sp_shape,
    hbegun.lambda_shape, hbegun.full, hvalue, hforward, hadjoint, hhessian⟩, ?_, ?_,
    hfinished.values⟩
  · exact ⟨hbyState.of_le hle, hbyControl.of_le hle, hgradient, hfinished.hasColumn,
      hfinished.lower⟩
  · exact ⟨hhessian.inputs_eq, hhessian.outputs_eq, habove, hfinished.directions,
      hfinished.projected, hfinished.column⟩

omit [ExactScalar α] in
/-- What is checked of a model leaves its dimensions and parameters as they are. -/
theorem resolve_yields : pool.Yields m.resolve fun _ resolved =>
    resolved.nx = m.x.rows ∧ resolved.nu = m.u.rows ∧ resolved.p.grid = m.parameters.grid := by
  rw [Model.resolve]
  split
  · exact Pool.Yields.throw_bind
  dsimp only
  split
  · rename_i representation _
    cases hp : m.p with
    | symbolic p => exact Pool.Yields.pure ⟨rfl, rfl, by rw [Model.parameters, hp]⟩
    | separate parts =>
        cases parts with
        | cons part parts => exact Pool.Yields.fail
        | nil =>
            refine (Pool.Yields.lift (symbols_ensures _ "p" 0 0)).bind
              fun p₁ p hle₁ ⟨_, hshape, hfull, _⟩ => Pool.Yields.pure ⟨rfl, rfl, ?_⟩
            obtain ⟨hrows, hcols⟩ := Prod.mk.inj hshape
            have hcells : p.grid.cells = [] := by
              rw [← List.length_eq_zero_iff, hfull, hrows, Nat.zero_mul]
            rw [Model.parameters, hp]
            calc p.grid = ⟨p.grid.rows, p.grid.cols, p.grid.cells⟩ := rfl
              _ = ⟨0, 0, []⟩ := by rw [hrows, hcols, hcells]
  · exact Pool.Yields.fail

/-- **The functions of a model have the values that they are built for, and the second-order one is
flattened from the projected second derivatives.** -/
theorem sensitivities_flattened (hm : m.Formed pool)
    (hsmooth : ∀ e ∈ m.rate.elements, e.Within .smooth σ) :
    pool.Yields m.sensitivities fun after s =>
      ∃ parts, parts.p.grid = m.parameters.grid ∧ m.Built s parts ∧ m.Valued after σ parts ∧
        m.Flattened s parts ∧ m.Projected parts := by
  rw [Model.sensitivities]
  refine resolve_yields.bind fun p₁ resolved hle₁ ⟨hnx, hnu, hp⟩ => Pool.Yields.adapt _ ?_
  have hm₁ : m.Formed p₁ := ⟨hm.states, hm.controls, fun e he => Pool.mem_of_le hle₁ (hm.mem e he)⟩
  refine (buildFunctions_yields hm₁ hnx hnu hsmooth).imp ?_
  rintro after s _ ⟨parts, hparts, hbuilt, hvalued, hflattened⟩
  exact ⟨parts, by rw [hparts, hp], hbuilt, hvalued, hflattened⟩

/-- The functions of a model have the values that they are built for. -/
theorem sensitivities_yields (hm : m.Formed pool)
    (hsmooth : ∀ e ∈ m.rate.elements, e.Within .smooth σ) :
    pool.Yields m.sensitivities fun after s =>
      ∃ parts, parts.p.grid = m.parameters.grid ∧ m.Built s parts ∧ m.Valued after σ parts :=
  (sensitivities_flattened hm hsmooth).imp
    fun _ _ _ ⟨parts, hparts, hbuilt, hvalued, _⟩ => ⟨parts, hparts, hbuilt, hvalued⟩

end ExplicitOde
