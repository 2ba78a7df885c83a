import ExplicitOde.Proofs.Model.Assignment

/-!
# The second-order function of a model

The last of the functions of a model has the gradient of the weighted sum of the rates and the lower
triangle of `Sᵀ H S`, whatever the values of states, directions, weights, controls and parameters,
if the rates are smooth there.
-/

namespace ExplicitOde

open ExplicitOde.Expr Matrix SymbolicFunction

variable {α : Type} [ExactScalar α] {σ τ : Nat → ℝ} {pool : Pool α} {m : Model α}

namespace Model

/-- What the second-order function has as its values under an assignment of all its symbols. -/
theorem hessian_call_of_binds {s : Sensitivities (SymbolicFunction α)} (hm : m.Formed pool)
    (hrun : (m.sensitivities pool.next).1 = .ok s)
    (hsmooth : ∀ e ∈ m.rate.elements, e.Within .smooth σ) {x u p : Grid ℝ}
    {Sx : Matrix (Fin m.x.numel) (Fin m.x.numel) ℝ} {Sp : Matrix (Fin m.x.numel) (Fin m.u.numel) ℝ}
    {lambda : Fin m.rate.numel → ℝ} (hbinds : List.Forall₂ (Binds σ) s.hessian.inputs
      [x, .ofMatrix Sx, .ofMatrix Sp, .ofMatrix (replicateCol (Fin 1) lambda), u, p]) :
    ∃ column : Grid ℝ,
      s.hessian.call Interpretation.exact
          ([x, .ofMatrix Sx, .ofMatrix Sp, .ofMatrix (replicateCol (Fin 1) lambda), u, p].map
            (Grid.map some)) =
        .ok ([.ofMatrix (Matrix.of fun k (_ : Fin 1) =>
            m.gradientAt σ lambda (finSumFinEquiv.symm k)), column].map (Grid.map some)) ∧
      column.shape = ((m.x.numel + m.u.numel) * (m.x.numel + m.u.numel + 1) / 2, 1) ∧
      column.Full ∧
      ∀ i j : Fin (m.x.numel + m.u.numel), j ≤ i →
        column.get? (j * (m.x.numel + m.u.numel) - j * (j - 1) / 2 + (i - j)) 0 =
          some (((stacked Sx Sp)ᵀ * m.hessianAt σ lambda * stacked Sx Sp)
            (finSumFinEquiv.symm i) (finSumFinEquiv.symm j)) := by
  obtain ⟨after, _, _, hvalues⟩ := sensitivities_yields hm hsmooth
  obtain ⟨parts, _, hbuilt, hvalued⟩ := hvalues s hrun
  have hsymbols := hbuilt.hessian.accepted.symbolic
  have hpool : ∀ output ∈ [parts.gradient, parts.column], ∀ e ∈ output.elements, e ∈ after :=
    List.forall_mem_cons.mpr ⟨fun e he => (hvalued.gradient.mem e he).1,
      List.forall_mem_singleton.mpr fun e he => (hvalued.column.mem e he).1⟩
  rw [hbuilt.hessian.inputs_eq] at hbinds
  rw [hbuilt.hessian.call_exact hpool hbinds]
  -- the new symbols have the values that were handed over for them
  match hbinds with
  | .cons _ (.cons hsx (.cons hsp (.cons hlambda _))) =>
    have hSx : (parts.sx.realAt σ : Matrix (Fin m.x.numel) (Fin m.x.numel) ℝ) = Sx :=
      hsx.realAt fun e he => hsymbols e (by simp [inputElements, he])
    have hSp : (parts.sp.realAt σ : Matrix (Fin m.x.numel) (Fin m.u.numel) ℝ) = Sp :=
      hsp.realAt fun e he => hsymbols e (by simp [inputElements, he])
    have hweight : parts.weightAt m σ = lambda :=
      Parts.weightAt_eq (fun e he => hsymbols e (by simp [inputElements, he])) hlambda
    have hdirections : parts.directionsAt m σ = stacked Sx Sp := by
      rw [Parts.directionsAt, hSx, hSp]
    have hgradient := hvalued.gradient.map_exactValue
    have hcolumn := hvalued.column.map_exactValue
    rw [hweight] at hgradient
    refine ⟨.ofMatrix (parts.column.realAt σ), ?_, rfl, Grid.full_ofMatrix _, fun i j hij => ?_⟩
    · rw [List.map_cons, List.map_cons, List.map_nil, hgradient, hcolumn]
      rfl
    · have hlower := hvalued.lower i j hij
      rw [hweight, hdirections] at hlower
      rw [← hlower, ← Grid.get?_map, hvalued.column.map_real]

/-- **The second-order function of a model has the gradient and the lower triangle of `Sᵀ H S` as
its values.** -/
theorem hessian_call {s : Sensitivities (SymbolicFunction α)} (hm : m.Formed pool)
    (hrun : (m.sensitivities pool.next).1 = .ok s) {x u p : Grid ℝ} (hx : Fits m.x x)
    (hu : Fits m.u u) (hp : Fits m.parameters p)
    (hsmooth : ∀ e ∈ m.rate.elements, e.Within .smooth (m.assignment x u p))
    (Sx : Matrix (Fin m.x.numel) (Fin m.x.numel) ℝ) (Sp : Matrix (Fin m.x.numel) (Fin m.u.numel) ℝ)
    (lambda : Fin m.rate.numel → ℝ) :
    (m.x.numel = m.x.rows ∧ m.u.numel = m.u.rows ∧ m.rate.numel = m.x.rows) ∧
    s.hessian.name = m.name ++ "_expl_ode_hess" ∧
    ∃ column : Grid ℝ,
      s.hessian.call Interpretation.exact
          ([x, .ofMatrix Sx, .ofMatrix Sp, .ofMatrix (replicateCol (Fin 1) lambda), u, p].map
            (Grid.map some)) =
        .ok ([.ofMatrix (Matrix.of fun k (_ : Fin 1) =>
            m.gradientAt (m.assignment x u p) lambda (finSumFinEquiv.symm k)), column].map
          (Grid.map some)) ∧
      column.shape = ((m.x.numel + m.u.numel) * (m.x.numel + m.u.numel + 1) / 2, 1) ∧
      column.Full ∧
      ∀ i j : Fin (m.x.numel + m.u.numel), j ≤ i →
        column.get? (j * (m.x.numel + m.u.numel) - j * (j - 1) / 2 + (i - j)) 0 =
          some (((stacked Sx Sp)ᵀ * m.hessianAt (m.assignment x u p) lambda * stacked Sx Sp)
            (finSumFinEquiv.symm i) (finSumFinEquiv.symm j)) := by
  -- a first look at the run, for the symbols that it makes
  obtain ⟨_, _, _, hfirst⟩ := sensitivities_yields hm hsmooth
  obtain ⟨parts, hparts, hbuilt, _⟩ := hfirst s hrun
  have hp' : Fits parts.p p := hp.of_grid_eq hparts.symm
  have hfits : List.Forall₂ Fits [m.x, parts.sx, parts.sp, parts.lambda, m.u, parts.p]
      [x, .ofMatrix Sx, .ofMatrix Sp, .ofMatrix (replicateCol (Fin 1) lambda), u, p] := by
    obtain ⟨hsx, hsp, hlambda⟩ := hbuilt.full
    have hsxShape : parts.sx.shape = (m.x.numel, m.x.numel) := by
      rw [hbuilt.states, hbuilt.sx_shape]
    have hspShape : parts.sp.shape = (m.x.numel, m.u.numel) := by
      rw [hbuilt.states, hbuilt.controls, hbuilt.sp_shape]
    have hlambdaShape : parts.lambda.shape = (m.rate.numel, 1) := by
      rw [hbuilt.rates, hbuilt.lambda_shape]
    exact .cons hx (.cons (fits_ofMatrix hsxShape hsx Sx) (.cons (fits_ofMatrix hspShape hsp Sp)
      (.cons (fits_ofMatrix hlambdaShape hlambda _) (.cons hu (.cons hp' .nil)))))
  obtain ⟨τ, hτ, hover⟩ := hbuilt.exists_binds hparts hx hu hp hbuilt.hessian.accepted.distinct
    hfits (by simp)
  rw [← hbuilt.hessian.inputs_eq] at hτ
  refine ⟨⟨hbuilt.states, hbuilt.controls, hbuilt.rates⟩, ?_, ?_⟩
  · rw [hbuilt.hessian.name_eq, FunctionKind.functionName, String.append_assoc]
    rfl
  rw [gradientAt_congr hover, hessianAt_congr hover]
  exact hessian_call_of_binds hm hrun
    (fun e he => (within_congr (hover e he)).mp (hsmooth e he)) hτ

/-- The mixed derivative of a product is one. -/
theorem bilinear_hessianAt (σ : Nat → ℝ) :
    bilinear.hessianAt σ (fun _ => 1) (Sum.inr (0 : Fin 1)) (Sum.inl (0 : Fin 1)) = 1 := by
  have hmixed : (((binary 2 .mul (symbol 0 "x") (symbol 1 "u") : Expr ℚ).diff 1).diff 0).real σ =
      1 := by simp [diff, diffBinary]
  show ∑ l : Fin 1, ((([binary 2 .mul (symbol 0 "x") (symbol 1 "u")].get l : Expr ℚ).diff 1).diff
    0).real σ * 1 = 1
  rw [Fin.sum_univ_one, mul_one]
  exact hmixed

/-- Where the state moves by its own initial value only, the mixed derivative is the second entry of
the lower triangle. -/
theorem hessian_call_bilinear :
    ∃ s, (bilinear.sensitivities bilinearPool.next).1 = .ok s ∧
      s.hessian.name = "bilinear_expl_ode_hess" ∧
      ∃ gradient column : Grid ℝ, s.hessian.call Interpretation.exact
          ([.ofMatrix !![2], .ofMatrix (1 : Matrix (Fin 1) (Fin 1) ℝ),
            .ofMatrix (0 : Matrix (Fin 1) (Fin 1) ℝ),
            .ofMatrix (replicateCol (Fin 1) fun _ : Fin 1 => 1), .ofMatrix !![5], ⟨0, 0, []⟩].map
            (Grid.map some)) = .ok ([gradient, column].map (Grid.map some)) ∧
        column.shape = (3, 1) ∧ column.get? 1 0 = some 1 := by
  obtain ⟨s, hs⟩ := bilinear_wellPosed.sensitivities
  have hsmooth : ∀ σ, ∀ e ∈ bilinear.rate.elements, e.Within .smooth σ := fun σ =>
    List.forall_mem_singleton.mpr ⟨trivial, trivial, trivial⟩
  obtain ⟨_, hname, column, hcall, hshape, _, hentry⟩ := hessian_call bilinear_formed hs
    (x := .ofMatrix !![2]) (u := .ofMatrix !![5]) (p := ⟨0, 0, []⟩) ⟨rfl, rfl⟩ ⟨rfl, rfl⟩
    ⟨rfl, rfl⟩ (hsmooth _) 1 0 (fun _ => 1)
  have hone : stacked (1 : Matrix (Fin bilinear.x.numel) (Fin bilinear.x.numel) ℝ)
      (0 : Matrix _ (Fin bilinear.u.numel) ℝ) = 1 := fromBlocks_one
  simp only [hone, transpose_one, Matrix.one_mul, Matrix.mul_one] at hentry
  have hmixed := hentry (1 : Fin 2) (0 : Fin 2) (Fin.zero_le _)
  exact ⟨s, hs, hname, _, column, hcall, hshape,
    hmixed.trans (congrArg some (bilinear_hessianAt _))⟩

end Model

end ExplicitOde
