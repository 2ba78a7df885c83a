import ExplicitOde.Proofs.Model.Success

/-!
# The projected second derivatives are symmetric

The second-order function hands out one half of a square matrix. The other half says nothing new:
wherever the rates are smooth, entries that lie opposite to each other have the same value, though
they are built in different ways. One is made from the derivative of a derivative by one symbol, the
other by the other, and the rules of calculus do not tell the two apart.
-/

namespace ExplicitOde

open ExplicitOde.Expr Matrix SymbolicFunction

variable {α : Type} [ExactScalar α] {pool : Pool α} {m : Model α}

namespace Model

/-- The second derivatives of the weighted sum of the rates are symmetric. -/
theorem hessianAt_transpose (m : Model α) (σ : Nat → ℝ) (weight : Fin m.rate.numel → ℝ) :
    (m.hessianAt σ weight)ᵀ = m.hessianAt σ weight := by
  ext i k
  rw [transpose_apply, hessianAt, of_apply, of_apply]
  exact Finset.sum_congr rfl fun l _ => by rw [real_diff_comm]

/-- So are their projections. -/
theorem projectedAt_transpose (m : Model α) (parts : Parts α) (σ : Nat → ℝ) :
    (parts.projectedAt m σ)ᵀ = parts.projectedAt m σ := by
  rw [Parts.projectedAt, transpose_mul, transpose_mul, transpose_transpose, hessianAt_transpose,
    Matrix.mul_assoc]

/-- The run of a model that was resolved makes the second-order function of such parts. -/
theorem buildFunctions_flattened {r : ResolvedModel α} {n : Nat}
    {s : Sensitivities (SymbolicFunction α)} (hnx : r.nx = m.x.rows) (hnu : r.nu = m.u.rows)
    (h : (buildFunctions m r n).1 = .ok s) : ∃ parts, m.Flattened s parts := by
  unfold buildFunctions at h
  dsimp only at h
  rw [hnx, hnu] at h
  -- the steps in their order; only those that make the matrices of the second order are kept
  obtain ⟨sx, _, _, h⟩ := bind_run_iff.mp h
  obtain ⟨sp, _, _, h⟩ := bind_run_iff.mp h
  obtain ⟨lambda, _, _, h⟩ := bind_run_iff.mp h
  obtain ⟨value, _, h⟩ := check_bind_run_iff.mp h
  obtain ⟨byState, _, _, h⟩ := bind_run_iff.mp h
  obtain ⟨byControl, _, _, h⟩ := bind_run_iff.mp h
  obtain ⟨forward, _, h⟩ := check_bind_run_iff.mp h
  obtain ⟨xu, hxu, h⟩ := check_bind_run_iff.mp h
  obtain ⟨gradient, _, _, h⟩ := bind_run_iff.mp h
  obtain ⟨adjoint, _, h⟩ := check_bind_run_iff.mp h
  obtain ⟨directions, _, hdirections, h⟩ := bind_run_iff.mp h
  obtain ⟨projected, _, hprojected, h⟩ := bind_run_iff.mp h
  obtain ⟨column, _, hcolumn, h⟩ := bind_run_iff.mp h
  obtain ⟨hessian, hhessian, h⟩ := check_bind_run_iff.mp h
  injection h with h
  obtain ⟨_, _, _, _, _, rfl⟩ := make_cases hhessian
  subst h
  exact ⟨⟨r.p, sx, sp, lambda, byState, byControl, gradient, xu, directions, projected, column⟩,
    rfl, rfl, hxu, ⟨_, _, congrArg Prod.fst hdirections⟩, ⟨_, congrArg Prod.fst hprojected⟩,
    ⟨_, _, congrArg Prod.fst hcolumn⟩⟩

theorem sensitivities_flattened_run {n : Nat} {s : Sensitivities (SymbolicFunction α)}
    (h : (m.sensitivities n).1 = .ok s) : ∃ parts, m.Flattened s parts := by
  obtain ⟨r, _, hr, hs⟩ := bind_run_iff.mp h
  obtain ⟨_, _, _, hresolved⟩ := @resolve_yields α (Pool.empty n) m
  obtain ⟨hnx, hnu, _⟩ := hresolved r (congrArg Prod.fst hr)
  exact buildFunctions_flattened hnx hnu (adapt_run_ok hs)

/-- **Entries of the projected second derivatives that lie opposite to each other have the same
value.** -/
theorem projected_symmetric {s : Sensitivities (SymbolicFunction α)} (hm : m.Formed pool)
    (hrun : (m.sensitivities pool.next).1 = .ok s) :
    ∃ parts, m.Flattened s parts ∧
      ∀ σ : Nat → ℝ, (∀ e ∈ m.rate.elements, e.Within .smooth σ) →
        parts.projected.shape = (m.x.rows + m.u.rows, m.x.rows + m.u.rows) ∧
        ∀ i j : Nat, i < m.x.rows + m.u.rows → j < m.x.rows + m.u.rows → ∃ e e' v,
          parts.projected.grid.get? i j = some e ∧ parts.projected.grid.get? j i = some e' ∧
            e.exactValue σ = some v ∧ e'.exactValue σ = some v := by
  -- the matrix is one and the same for all assignments; if there is none nothing is said of it
  by_cases hsomewhere : ∃ σ : Nat → ℝ, ∀ e ∈ m.rate.elements, e.Within .smooth σ
  case neg =>
    obtain ⟨parts, hflattened⟩ := sensitivities_flattened_run hrun
    exact ⟨parts, hflattened, fun σ hσ => absurd ⟨σ, hσ⟩ hsomewhere⟩
  obtain ⟨_, hsmooth⟩ := hsomewhere
  obtain ⟨_, _, _, hvalues⟩ := sensitivities_flattened hm hsmooth
  obtain ⟨parts, _, hbuilt, _, hflattened, hprojected⟩ := hvalues s hrun
  refine ⟨parts, hflattened, fun σ hσ => ?_⟩
  obtain ⟨_, hvalue⟩ := hprojected ⟨σ, hσ⟩
  refine ⟨?_, fun i j hi hj => ?_⟩
  · rw [hvalue.shape, hbuilt.states, hbuilt.controls]
  rw [← hbuilt.states, ← hbuilt.controls] at hi hj
  obtain ⟨e, he, hhas⟩ := hvalue.entry ⟨i, hi⟩ ⟨j, hj⟩
  obtain ⟨e', he', hhas'⟩ := hvalue.entry ⟨j, hj⟩ ⟨i, hi⟩
  have hdefined : ∀ {e : Expr α} {v : ℝ} {other : Pool α}, other.Has .smooth σ e v True →
      e.exactValue σ = some v := fun h =>
    exactValue_eq_some_iff.mpr ⟨(h.within trivial).of_smooth .defined, h.real⟩
  refine ⟨e, e', _, he, he', hdefined hhas, (hdefined hhas').trans (congrArg some ?_)⟩
  exact congrFun₂ (projectedAt_transpose m parts σ) _ _

/-- For the product of a state and a control the two entries beside the diagonal are mixed
derivatives. -/
theorem projected_symmetric_bilinear :
    ∃ s parts, (bilinear.sensitivities bilinearPool.next).1 = .ok s ∧
      bilinear.Flattened s parts ∧ ∃ e e' v, parts.projected.grid.get? 1 0 = some e ∧
        parts.projected.grid.get? 0 1 = some e' ∧
          e.exactValue (fun i => i + 1) = some v ∧ e'.exactValue (fun i => i + 1) = some v := by
  obtain ⟨s, hs⟩ := bilinear_wellPosed.sensitivities
  have hsmooth : ∀ e ∈ bilinear.rate.elements, e.Within .smooth fun i => (i : ℝ) + 1 :=
    List.forall_mem_singleton.mpr ⟨trivial, trivial, trivial⟩
  obtain ⟨parts, hflattened, hvalue⟩ := projected_symmetric bilinear_formed hs
  exact ⟨s, parts, hs, hflattened, (hvalue _ hsmooth).2 1 0 (by decide) (by decide)⟩

end Model

end ExplicitOde
