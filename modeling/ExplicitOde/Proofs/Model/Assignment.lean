import ExplicitOde.Proofs.Function.Exact
import ExplicitOde.Proofs.Model.Success

/-!
# Values of states, controls and parameters

A function of a model is called with values of states, controls and parameters, and with values of
directions or weights beside them. The rates know of the former only: whatever the other values are,
there is an assignment of all inputs under which the rates are what they are under the assignment of
states, controls and parameters alone.
-/

namespace ExplicitOde

open ExplicitOde.Expr Matrix SymbolicFunction

variable {α : Type} [ExactScalar α] {σ τ : Nat → ℝ} {pool : Pool α} {m : Model α}

namespace Model

/-- The values of symbols where states, controls and parameters have given values. -/
noncomputable def assignment (m : Model α) (x u p : Grid ℝ) : Nat → ℝ :=
  lookUp (Interpretation.total (α := α)) (bindings [m.x, m.u, m.parameters] [x, u, p])

/-! ## What the rates are under assignments that agree on their symbols -/

/-- The weighted sum of the rates has the same gradient under assignments that agree on its
symbols. -/
theorem gradientAt_congr (h : ∀ e ∈ m.rate.elements, e.Over fun i => σ i = τ i) :
    m.gradientAt σ = m.gradientAt τ := by
  funext weight k
  refine Finset.sum_congr rfl fun l _ => ?_
  rw [real_congr ((h _ (List.get_mem m.rate.elements l)).diff (m.coordinate k))]

theorem hessianAt_congr (h : ∀ e ∈ m.rate.elements, e.Over fun i => σ i = τ i) :
    m.hessianAt σ = m.hessianAt τ := by
  funext weight
  ext i k
  rw [hessianAt, hessianAt, of_apply, of_apply]
  refine Finset.sum_congr rfl fun l _ => ?_
  rw [real_congr (((h _ (List.get_mem m.rate.elements l)).diff (m.coordinate i)).diff
    (m.coordinate k))]

theorem rate_congr (h : ∀ e ∈ m.rate.elements, e.Over fun i => σ i = τ i) :
    m.rate.grid.map (Expr.real σ) = m.rate.grid.map (Expr.real τ) := by
  have hcells : m.rate.grid.cells.map (Expr.real σ) = m.rate.grid.cells.map (Expr.real τ) :=
    List.map_congr_left fun e he => real_congr (h e he)
  rw [Grid.map, Grid.map, hcells]

theorem jacobianAt_congr (h : ∀ e ∈ m.rate.elements, e.Over fun i => σ i = τ i)
    (arg : ExprMatrix α) : m.rate.jacobianAt arg σ = m.rate.jacobianAt arg τ := by
  ext l i
  exact real_congr ((h _ (List.get_mem m.rate.elements l)).diff _)

/-- The gradient is the transposed Jacobian matrix by states and controls, times the weights. -/
theorem gradientAt_eq_mul (σ : Nat → ℝ) (weight : Fin m.rate.numel → ℝ) :
    (Matrix.of fun k (_ : Fin 1) => m.gradientAt σ weight k) =
      (fromCols (m.rate.jacobianAt m.x σ) (m.rate.jacobianAt m.u σ))ᵀ *
        replicateCol (Fin 1) weight := by
  ext k j
  rw [mul_apply, of_apply, gradientAt]
  refine Finset.sum_congr rfl fun l _ => ?_
  cases k <;> rfl

/-! ## Assignments of all inputs -/

/-- **Values of the inputs of a function can be assigned, and the rates do not change by it.** -/
theorem Built.exists_binds {s : Sensitivities (SymbolicFunction α)} {parts : Parts α}
    (hbuilt : m.Built s parts) (hparts : parts.p.grid = m.parameters.grid) {x u p : Grid ℝ}
    (hx : Fits m.x x) (hu : Fits m.u u) (hp : Fits m.parameters p)
    {inputs : List (ExprMatrix α)} {args : List (Grid ℝ)}
    (hdistinct : ((inputElements inputs).map Expr.id).Nodup)
    (hfits : List.Forall₂ Fits inputs args)
    (hgiven : ∀ q ∈ [(m.x, x), (m.u, u), (parts.p, p)], q ∈ inputs.zip args) :
    ∃ τ : Nat → ℝ, List.Forall₂ (Binds τ) inputs args ∧
      ∀ e ∈ m.rate.elements, e.Over fun i => m.assignment x u p i = τ i := by
  have hrates : List.Forall₂ (Binds (m.assignment x u p)) [m.x, m.u, parts.p] [x, u, p] := by
    have hdistinct : ((inputElements [m.x, m.u, m.parameters]).map Expr.id).Nodup := by
      have h := hbuilt.value.accepted.distinct
      simp only [inputElements, List.flatMap_cons, ExprMatrix.elements, hparts] at h ⊢
      exact h
    have hbinds : List.Forall₂ (Binds (m.assignment x u p)) [m.x, m.u, m.parameters] [x, u, p] :=
      binds_bindings hdistinct (.cons hx (.cons hu (.cons hp .nil)))
    rcases hbinds with _ | ⟨hbx, _ | ⟨hbu, _ | ⟨hbp, _⟩⟩⟩
    exact .cons hbx (.cons hbu (.cons (hbp.of_grid_eq hparts.symm) .nil))
  -- both assignments bind states, controls and parameters to the same values
  obtain ⟨τ, hτ⟩ := SymbolicFunction.exists_binds hdistinct hfits
  have hall : ∀ {q : ExprMatrix α × Grid ℝ}, q ∈ inputs.zip args → Binds τ q.1 q.2 :=
    fun hq => (List.forall₂_iff_zip.mp hτ).2 hq
  simp only [List.forall_mem_cons, List.not_mem_nil, false_implies, implies_true, and_true]
    at hgiven
  have hgiven' : List.Forall₂ (Binds τ) [m.x, m.u, parts.p] [x, u, p] :=
    .cons (hall hgiven.1) (.cons (hall hgiven.2.1) (.cons (hall hgiven.2.2) .nil))
  refine ⟨τ, hτ, ?_⟩
  have hover := hbuilt.value.accepted.outputs_agree hrates hgiven'
  exact forall_mem_outputElements.mp hover m.rate List.mem_cons_self

/-- The state and the control of a bilinear model have the given values. -/
theorem bilinear_assignment (a b : ℝ) :
    bilinear.assignment (.ofMatrix !![a]) (.ofMatrix !![b]) ⟨0, 0, []⟩ 0 = a ∧
      bilinear.assignment (.ofMatrix !![a]) (.ofMatrix !![b]) ⟨0, 0, []⟩ 1 = b := by
  have hbinds : List.Forall₂
      (Binds (bilinear.assignment (.ofMatrix !![a]) (.ofMatrix !![b]) ⟨0, 0, []⟩))
      [bilinear.x, bilinear.u, bilinear.parameters]
        [.ofMatrix !![a], .ofMatrix !![b], ⟨0, 0, []⟩] :=
    binds_bindings bilinear_wellPosed.distinct
      (.cons ⟨rfl, rfl⟩ (.cons ⟨rfl, rfl⟩ (.cons ⟨rfl, rfl⟩ .nil)))
  match hbinds with
  | .cons hx (.cons hu _) =>
    exact ⟨List.head_eq_of_cons_eq hx.values, List.head_eq_of_cons_eq hu.values⟩

end Model

/-- The symbols for the weights have the weights that they are bound to. -/
theorem Parts.weightAt_eq {parts : Parts α} {weight : Fin m.rate.numel → ℝ}
    (hsymbols : ∀ e ∈ parts.lambda.elements, e.isSymbol = true)
    (hbinds : Binds σ parts.lambda (.ofMatrix (replicateCol (Fin 1) weight))) :
    parts.weightAt m σ = weight := by
  have hvalues : (parts.lambda.realAt σ : Matrix _ (Fin 1) ℝ) = replicateCol (Fin 1) weight :=
    hbinds.realAt hsymbols
  funext l
  exact congrFun₂ hvalues l 0

/-- A function that was made has the values of its outputs as its results. -/
theorem SymbolicFunction.MadeOf.call_exact {f : SymbolicFunction α} {name : String}
    {inputs outputs : List (ExprMatrix α)} {args : List (Grid ℝ)}
    (h : f.MadeOf name inputs outputs) (hpool : ∀ m ∈ outputs, ∀ e ∈ m.elements, e ∈ pool)
    (hbinds : List.Forall₂ (Binds σ) inputs args) :
    f.call Interpretation.exact (args.map (Grid.map some)) =
      .ok (outputs.map fun m => m.grid.map (Expr.exactValue σ)) := by
  have haccepted : Accepted f.inputs f.outputs := by
    rw [h.inputs_eq, h.outputs_eq]
    exact h.accepted
  rw [← h.inputs_eq] at hbinds
  rw [← h.outputs_eq] at hpool ⊢
  exact SymbolicFunction.call_exact (forall_mem_outputElements.mpr hpool) haccepted hbinds

end ExplicitOde
