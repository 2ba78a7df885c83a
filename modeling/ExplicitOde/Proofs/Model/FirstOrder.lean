import ExplicitOde.Proofs.Model.Assignment

/-!
# The first-order functions of a model

The forward function has the rates and their derivatives in the directions of states and controls,
the adjoint function the gradient of the weighted sum of the rates, whatever the values of states,
directions, weights, controls and parameters, if the rates are smooth there.
-/

namespace ExplicitOde

open ExplicitOde.Expr Matrix SymbolicFunction

variable {α : Type} [ExactScalar α] {σ : Nat → ℝ} {pool : Pool α} {m : Model α}

namespace Model

/-- Smooth rates have their values as values in exact arithmetic. -/
theorem rate_exactValue (hsmooth : ∀ e ∈ m.rate.elements, e.Within .smooth σ) :
    m.rate.grid.map (Expr.exactValue σ) = (m.rate.grid.map (Expr.real σ)).map some := by
  rw [Grid.map, Grid.map, Grid.map, List.map_map]
  congr 1
  refine List.map_congr_left fun e he => ?_
  exact exactValue_eq_some_iff.mpr ⟨(hsmooth e he).of_smooth .defined, rfl⟩

section Calls

variable {s : Sensitivities (SymbolicFunction α)} {x u p : Grid ℝ}
  {Sx : Matrix (Fin m.x.numel) (Fin m.x.numel) ℝ} {Sp : Matrix (Fin m.x.numel) (Fin m.u.numel) ℝ}
  {lambda : Fin m.rate.numel → ℝ}

/-- What the forward function has as its values under an assignment of all its symbols. -/
theorem forward_call_of_binds (hm : m.Formed pool) (hrun : (m.sensitivities pool.next).1 = .ok s)
    (hsmooth : ∀ e ∈ m.rate.elements, e.Within .smooth σ)
    (hbinds : List.Forall₂ (Binds σ) s.forward.inputs [x, .ofMatrix Sx, .ofMatrix Sp, u, p]) :
    s.forward.call Interpretation.exact
        ([x, .ofMatrix Sx, .ofMatrix Sp, u, p].map (Grid.map some)) =
      .ok ([m.rate.grid.map (Expr.real σ), .ofMatrix (m.rate.jacobianAt m.x σ * Sx),
        .ofMatrix (m.rate.jacobianAt m.u σ + m.rate.jacobianAt m.x σ * Sp)].map
          (Grid.map some)) := by
  obtain ⟨after, hle, _, hvalues⟩ := sensitivities_yields hm hsmooth
  obtain ⟨parts, _, hbuilt, hvalued⟩ := hvalues s hrun
  have hsymbols := hbuilt.forward.accepted.symbolic
  have hpool : ∀ output ∈ [m.rate, parts.byState, parts.byControl], ∀ e ∈ output.elements,
      e ∈ after := List.forall_mem_cons.mpr ⟨fun e he => Pool.mem_of_le hle (hm.mem e he),
    List.forall_mem_cons.mpr ⟨fun e he => (hvalued.byState.mem e he).1,
      List.forall_mem_singleton.mpr fun e he => (hvalued.byControl.mem e he).1⟩⟩
  rw [hbuilt.forward.inputs_eq] at hbinds
  rw [hbuilt.forward.call_exact hpool hbinds]
  match hbinds with
  | .cons _ (.cons hsx (.cons hsp _)) =>
    have hSx : (parts.sx.realAt σ : Matrix (Fin m.x.numel) (Fin m.x.numel) ℝ) = Sx :=
      hsx.realAt fun e he => hsymbols e (by simp [inputElements, he])
    have hSp : (parts.sp.realAt σ : Matrix (Fin m.x.numel) (Fin m.u.numel) ℝ) = Sp :=
      hsp.realAt fun e he => hsymbols e (by simp [inputElements, he])
    -- the sensitivities by the states are known for as many columns as states
    have hbyState := (hvalued.byState.cast (rfl : _ = m.rate.numel) hbuilt.states).map_exactValue
    have hbyControl := hvalued.byControl.map_exactValue
    rw [hSp] at hbyControl
    have hproduct : (m.rate.jacobianAt m.x σ *
        (parts.sx.realAt σ : Matrix (Fin m.x.numel) (Fin m.x.rows) ℝ)).submatrix
          (Fin.cast rfl) (Fin.cast hbuilt.states) = m.rate.jacobianAt m.x σ * Sx := by
      rw [← hSx]
      rfl
    rw [hproduct] at hbyState
    rw [List.map_cons, List.map_cons, List.map_cons, List.map_nil, rate_exactValue hsmooth,
      hbyState, hbyControl]
    rfl

/-- What the adjoint function has as its values under an assignment of all its symbols. -/
theorem adjoint_call_of_binds (hm : m.Formed pool) (hrun : (m.sensitivities pool.next).1 = .ok s)
    (hsmooth : ∀ e ∈ m.rate.elements, e.Within .smooth σ)
    (hbinds : List.Forall₂ (Binds σ) s.adjoint.inputs
      [x, .ofMatrix (replicateCol (Fin 1) lambda), u, p]) :
    s.adjoint.call Interpretation.exact
        ([x, .ofMatrix (replicateCol (Fin 1) lambda), u, p].map (Grid.map some)) =
      .ok [(Grid.ofMatrix (((fromCols (m.rate.jacobianAt m.x σ) (m.rate.jacobianAt m.u σ))ᵀ *
        replicateCol (Fin 1) lambda).submatrix finSumFinEquiv.symm id)).map some] := by
  obtain ⟨after, _, _, hvalues⟩ := sensitivities_yields hm hsmooth
  obtain ⟨parts, _, hbuilt, hvalued⟩ := hvalues s hrun
  have hsymbols := hbuilt.adjoint.accepted.symbolic
  have hpool : ∀ output ∈ [parts.gradient], ∀ e ∈ output.elements, e ∈ after :=
    List.forall_mem_singleton.mpr fun e he => (hvalued.gradient.mem e he).1
  rw [hbuilt.adjoint.inputs_eq] at hbinds
  rw [hbuilt.adjoint.call_exact hpool hbinds]
  match hbinds with
  | .cons _ (.cons hlambda _) =>
    have hweight : parts.weightAt m σ = lambda :=
      Parts.weightAt_eq (fun e he => hsymbols e (by simp [inputElements, he])) hlambda
    have hgradient := hvalued.gradient.map_exactValue
    rw [hweight] at hgradient
    rw [List.map_cons, List.map_nil, hgradient, ← gradientAt_eq_mul]
    rfl

end Calls

/-- **The first-order functions of a model have the rates, their derivatives in the directions of
states and controls, and their gradient as their values.** -/
theorem firstOrder_call {s : Sensitivities (SymbolicFunction α)} (hm : m.Formed pool)
    (hrun : (m.sensitivities pool.next).1 = .ok s) {x u p : Grid ℝ} (hx : Fits m.x x)
    (hu : Fits m.u u) (hp : Fits m.parameters p)
    (hsmooth : ∀ e ∈ m.rate.elements, e.Within .smooth (m.assignment x u p))
    (Sx : Matrix (Fin m.x.numel) (Fin m.x.numel) ℝ) (Sp : Matrix (Fin m.x.numel) (Fin m.u.numel) ℝ)
    (lambda : Fin m.rate.numel → ℝ) :
    (m.x.numel = m.x.rows ∧ m.u.numel = m.u.rows ∧ m.rate.numel = m.x.rows) ∧
    (s.forward.name = m.name ++ "_expl_vde_forw" ∧
      s.forward.call Interpretation.exact
          ([x, .ofMatrix Sx, .ofMatrix Sp, u, p].map (Grid.map some)) =
        .ok ([m.rate.grid.map (Expr.real (m.assignment x u p)),
          .ofMatrix (m.rate.jacobianAt m.x (m.assignment x u p) * Sx),
          .ofMatrix (m.rate.jacobianAt m.u (m.assignment x u p) +
            m.rate.jacobianAt m.x (m.assignment x u p) * Sp)].map (Grid.map some))) ∧
    s.adjoint.name = m.name ++ "_expl_vde_adj" ∧
      s.adjoint.call Interpretation.exact
          ([x, .ofMatrix (replicateCol (Fin 1) lambda), u, p].map (Grid.map some)) =
        .ok [(Grid.ofMatrix (((fromCols (m.rate.jacobianAt m.x (m.assignment x u p))
          (m.rate.jacobianAt m.u (m.assignment x u p)))ᵀ *
            replicateCol (Fin 1) lambda).submatrix finSumFinEquiv.symm id)).map some] := by
  -- a first look at the run, for the symbols that it makes
  obtain ⟨_, _, _, hfirst⟩ := sensitivities_yields hm hsmooth
  obtain ⟨parts, hparts, hbuilt, _⟩ := hfirst s hrun
  have hp' : Fits parts.p p := hp.of_grid_eq hparts.symm
  obtain ⟨hsxFull, hspFull, hlambdaFull⟩ := hbuilt.full
  have hsx : Fits parts.sx (.ofMatrix Sx) :=
    fits_ofMatrix (by rw [hbuilt.states, hbuilt.sx_shape]) hsxFull Sx
  have hsp : Fits parts.sp (.ofMatrix Sp) :=
    fits_ofMatrix (by rw [hbuilt.states, hbuilt.controls, hbuilt.sp_shape]) hspFull Sp
  have hlambda : Fits parts.lambda (.ofMatrix (replicateCol (Fin 1) lambda)) :=
    fits_ofMatrix (by rw [hbuilt.rates, hbuilt.lambda_shape]) hlambdaFull _
  refine ⟨⟨hbuilt.states, hbuilt.controls, hbuilt.rates⟩, ⟨?_, ?_⟩, ?_, ?_⟩
  · rw [hbuilt.forward.name_eq, FunctionKind.functionName, String.append_assoc]
    rfl
  · obtain ⟨τ, hτ, hover⟩ := hbuilt.exists_binds hparts hx hu hp hbuilt.forward.accepted.distinct
      (.cons hx (.cons hsx (.cons hsp (.cons hu (.cons hp' .nil))))) (by simp)
    rw [← hbuilt.forward.inputs_eq] at hτ
    rw [rate_congr hover, jacobianAt_congr hover, jacobianAt_congr hover]
    exact forward_call_of_binds hm hrun
      (fun e he => (within_congr (hover e he)).mp (hsmooth e he)) hτ
  · rw [hbuilt.adjoint.name_eq, FunctionKind.functionName, String.append_assoc]
    rfl
  · obtain ⟨τ, hτ, hover⟩ := hbuilt.exists_binds hparts hx hu hp hbuilt.adjoint.accepted.distinct
      (.cons hx (.cons hlambda (.cons hu (.cons hp' .nil)))) (by simp)
    rw [← hbuilt.adjoint.inputs_eq] at hτ
    rw [jacobianAt_congr hover, jacobianAt_congr hover]
    exact adjoint_call_of_binds hm hrun
      (fun e he => (within_congr (hover e he)).mp (hsmooth e he)) hτ

/-- The derivatives of a product of a state and a control are the control and the state. -/
theorem bilinear_jacobianAt (σ : Nat → ℝ) :
    bilinear.rate.jacobianAt bilinear.x σ = Matrix.of (fun (_ : Fin 1) (_ : Fin 1) => σ 1) ∧
      bilinear.rate.jacobianAt bilinear.u σ = Matrix.of fun (_ : Fin 1) (_ : Fin 1) => σ 0 := by
  have hx : ((binary 2 .mul (symbol 0 "x") (symbol 1 "u") : Expr ℚ).diff 0).real σ = σ 1 := by
    simp [diff, diffBinary]
  have hu : ((binary 2 .mul (symbol 0 "x") (symbol 1 "u") : Expr ℚ).diff 1).real σ = σ 0 := by
    simp [diff, diffBinary]
  have hone : ∀ {f g : Matrix (Fin 1) (Fin 1) ℝ}, f 0 0 = g 0 0 → f = g := by
    intro f g h
    ext l i
    rwa [Subsingleton.elim l 0, Subsingleton.elim i 0]
  exact ⟨hone hx, hone hu⟩

/-- Where the state is 2 and the control is 5, with directions 3 and 7 and weight 11. -/
theorem firstOrder_call_bilinear :
    ∃ s, (bilinear.sensitivities bilinearPool.next).1 = .ok s ∧
      s.forward.call Interpretation.exact
          ([.ofMatrix !![2], .ofMatrix !![3], .ofMatrix !![7], .ofMatrix !![5], ⟨0, 0, []⟩].map
            (Grid.map some)) =
        .ok ([⟨1, 1, [10]⟩, ⟨1, 1, [15]⟩, ⟨1, 1, [37]⟩].map (Grid.map some)) ∧
      s.adjoint.call Interpretation.exact
          ([.ofMatrix !![2], .ofMatrix (replicateCol (Fin 1) fun _ : Fin 1 => 11),
            .ofMatrix !![5], ⟨0, 0, []⟩].map (Grid.map some)) =
        .ok [(⟨2, 1, [55, 22]⟩ : Grid ℝ).map some] := by
  obtain ⟨s, hs⟩ := bilinear_wellPosed.sensitivities
  have hsmooth : ∀ σ, ∀ e ∈ bilinear.rate.elements, e.Within .smooth σ := fun σ =>
    List.forall_mem_singleton.mpr ⟨trivial, trivial, trivial⟩
  obtain ⟨_, ⟨_, hforward⟩, _, hadjoint⟩ := firstOrder_call bilinear_formed hs
    (x := .ofMatrix !![2]) (u := .ofMatrix !![5]) (p := ⟨0, 0, []⟩) ⟨rfl, rfl⟩ ⟨rfl, rfl⟩
    ⟨rfl, rfl⟩ (hsmooth _) (!![3] : Matrix (Fin 1) (Fin 1) ℝ) (!![7] : Matrix (Fin 1) (Fin 1) ℝ)
    (fun _ => 11)
  obtain ⟨hstate, hcontrol⟩ := bilinear_assignment 2 5
  generalize bilinear.assignment (.ofMatrix !![2]) (.ofMatrix !![5]) ⟨0, 0, []⟩ = σ
    at hforward hadjoint hstate hcontrol
  obtain ⟨hx, hu⟩ := bilinear_jacobianAt σ
  have hone : ∀ M : Matrix (Fin 1) (Fin 1) ℝ, Grid.ofMatrix M = ⟨1, 1, [M 0 0]⟩ := fun _ => rfl
  have htwo : ∀ M : Matrix (Fin 2) (Fin 1) ℝ, Grid.ofMatrix M = ⟨2, 1, [M 0 0, M 1 0]⟩ :=
    fun _ => rfl
  rw [hx, hu] at hforward hadjoint
  refine ⟨s, hs, hforward.trans ?_, hadjoint.trans ?_⟩
  · have hrate : bilinear.rate.grid.map (Expr.real σ) = ⟨1, 1, [σ 0 * σ 1]⟩ := rfl
    have hmoved : Grid.ofMatrix ((Matrix.of fun (_ : Fin 1) (_ : Fin 1) => (5 : ℝ)) * !![3]) =
        ⟨1, 1, [15]⟩ := (hone _).trans (by norm_num [mul_apply])
    have hsum : Grid.ofMatrix ((Matrix.of fun (_ : Fin 1) (_ : Fin 1) => (2 : ℝ)) +
        (Matrix.of fun (_ : Fin 1) (_ : Fin 1) => (5 : ℝ)) * !![7]) = ⟨1, 1, [37]⟩ :=
      (hone _).trans (by norm_num [mul_apply])
    rw [hrate, hstate, hcontrol]
    refine congrArg (fun gs : List (Grid ℝ) => Except.ok (gs.map (Grid.map some))) ?_
    exact congrArg₂ List.cons (by norm_num) (congrArg₂ List.cons hmoved (congrArg (· :: []) hsum))
  · rw [hstate, hcontrol]
    have hentry : ∀ k : Fin 1 ⊕ Fin 1,
        ((fromCols (Matrix.of fun (_ : Fin 1) (_ : Fin 1) => (5 : ℝ))
          (Matrix.of fun (_ : Fin 1) (_ : Fin 1) => 2))ᵀ *
            replicateCol (Fin 1) fun _ : Fin 1 => (11 : ℝ)) k 0 =
          Sum.elim (fun _ => 55) (fun _ => 22) k := by
      rintro (k | k) <;> rw [mul_apply, Fin.sum_univ_one] <;> norm_num
    refine congrArg (fun g : Grid ℝ => Except.ok [g.map some]) ((htwo _).trans ?_)
    exact congrArg₂ (fun a b : ℝ => (⟨2, 1, [a, b]⟩ : Grid ℝ)) (hentry (.inl 0)) (hentry (.inr 0))

end Model

end ExplicitOde
