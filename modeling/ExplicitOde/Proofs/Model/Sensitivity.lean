import ExplicitOde.Model.Sensitivity
import ExplicitOde.Proofs.Derivative.Second
import ExplicitOde.Proofs.Derivative.Transpose
import ExplicitOde.Proofs.Function.Make
import ExplicitOde.Proofs.Matrix.Arithmetic
import ExplicitOde.Proofs.Matrix.LowerTriangle
import Mathlib.Data.Matrix.Block

/-!
# The matrices that make up the functions of a model

Each of the matrices that are built for a model has the value that its definition has on paper.
Where the parts of a model do not fit each other one of the operations is refused, so a model that
has functions has as many rates as states and one column each of states and controls.
-/

namespace ExplicitOde

open ExplicitOde.Expr Matrix

variable {α : Type} [ExactScalar α] {r : Regularity} {σ : Nat → ℝ} {pool : Pool α} {kind : Kind}
  {nx nu : Nat} {rate x u sx sp : ExprMatrix α}

/-! ## First derivatives -/

/-- The states move by the Jacobian matrix times their own directions. -/
theorem stateSensitivity_yields (hrate : ∀ e ∈ rate.elements, e ∈ pool)
    (hsmooth : ∀ e ∈ rate.elements, e.Within .smooth σ) (hx : (x.elements.map Expr.id).Nodup)
    (hshape : sx.shape = (nx, nx)) (hfull : sx.grid.Full)
    (hsx : ∀ e ∈ sx.elements, e ∈ pool ∧ e.Within r σ) :
    pool.Yields (stateSensitivity kind nx rate x sx) fun after m =>
      x.numel = nx ∧ rate.numel = nx ∧ after.HasMatrix r σ m
        (rate.jacobianAt x σ * (sx.realAt σ : Matrix (Fin x.numel) (Fin nx) ℝ)) := by
  obtain ⟨hsxrows, hsxcols⟩ := Prod.mk.inj hshape
  rw [stateSensitivity]
  refine (Pool.Yields.lift (zeros_ensures r σ kind nx nx)).bind fun p₁ zero hle₁ hzero => ?_
  have hmoved : p₁.Yields (rate.forwardDerivative x sx) fun after m => sx.rows = x.numel ∧
      after.HasMatrix r σ m
        (rate.jacobianAt x σ * (sx.realAt σ : Matrix (Fin x.numel) (Fin nx) ℝ)) :=
    ExprMatrix.forwardDerivative_yields_realAt (fun e he => Pool.mem_of_le hle₁ (hrate e he)) hx
      hsmooth hsxcols hfull fun e he => ⟨Pool.mem_of_le hle₁ (hsx e he).1, (hsx e he).2⟩
  refine hmoved.bind fun p₂ moved hle₂ ⟨hrows, hmoved⟩ => add_yields_of_shapes fun hshapes => ?_
  rw [hzero.shape, hmoved.shape] at hshapes
  obtain rfl : nx = rate.numel := (Prod.mk.inj hshapes).1
  refine (add_yields (hzero.of_le hle₂) hmoved).imp fun _ _ _ hsum => ⟨?_, rfl, ?_⟩
  · exact hrows.symm.trans hsxrows
  · rwa [zero_add] at hsum

/-- The states move by the Jacobian matrices by the controls themselves and by the states that these
have moved. -/
theorem controlSensitivity_yields (hrate : ∀ e ∈ rate.elements, e ∈ pool)
    (hsmooth : ∀ e ∈ rate.elements, e.Within .smooth σ) (hx : (x.elements.map Expr.id).Nodup)
    (hu : (u.elements.map Expr.id).Nodup) (hshape : sp.shape = (nx, nu)) (hfull : sp.grid.Full)
    (hsp : ∀ e ∈ sp.elements, e ∈ pool ∧ e.Within r σ) :
    pool.Yields (controlSensitivity kind nx nu rate x u sp) fun after m =>
      u.numel = nu ∧ after.HasMatrix r σ m
        (rate.jacobianAt u σ + rate.jacobianAt x σ * sp.realAt σ) := by
  obtain ⟨hsprows, hspcols⟩ := Prod.mk.inj hshape
  rw [controlSensitivity]
  refine (Pool.Yields.lift (zeros_ensures r σ kind nx nu)).bind fun p₁ zero hle₁ hzero => ?_
  have hdirect : p₁.Yields (rate.jacobian u) fun after m =>
      after.HasMatrix r σ m (rate.jacobianAt u σ) :=
    ExprMatrix.jacobian_yields (fun e he => Pool.mem_of_le hle₁ (hrate e he)) hu hsmooth
  refine hdirect.bind fun p₂ direct hle₂ hdirect => ?_
  have hle₁₂ := Pool.le_trans hle₁ hle₂
  -- the shapes are compared by the sum, so that the zeros have that of the Jacobian matrix
  have hadd : p₂.Yields (ExprMatrix.add zero direct) fun after m => nx = rate.numel ∧
      nu = u.numel ∧ after.HasMatrix r σ m (rate.jacobianAt u σ) := by
    refine add_yields_of_shapes fun hshapes => ?_
    rw [hzero.shape, hdirect.shape] at hshapes
    obtain ⟨rfl, rfl⟩ := Prod.mk.inj hshapes
    refine (add_yields (hzero.of_le hle₂) hdirect).imp fun _ _ _ hsum => ⟨rfl, rfl, ?_⟩
    rwa [zero_add] at hsum
  refine hadd.bind fun p₃ sum hle₃ ⟨_, hnu, hsum⟩ => ?_
  have hle := Pool.le_trans hle₁₂ hle₃
  have hmoved : p₃.Yields (rate.forwardDerivative x sp) fun after m => sp.rows = x.numel ∧
      after.HasMatrix r σ m
        (rate.jacobianAt x σ * (sp.realAt σ : Matrix (Fin x.numel) (Fin u.numel) ℝ)) :=
    ExprMatrix.forwardDerivative_yields_realAt (fun e he => Pool.mem_of_le hle (hrate e he)) hx
      hsmooth (hspcols.trans hnu) hfull fun e he => ⟨Pool.mem_of_le hle (hsp e he).1, (hsp e he).2⟩
  refine hmoved.bind fun p₄ moved hle₄ ⟨_, hmoved⟩ => ?_
  exact (add_yields (hsum.of_le hle₄) hmoved).imp fun _ _ _ h => ⟨hnu.symm, h⟩

/-! ## Directions -/

/-- The matrix `[[Sx, Sp], [0, I]]`. -/
def stacked (Sx : Matrix (Fin nx) (Fin nx) ℝ) (Sp : Matrix (Fin nx) (Fin nu) ℝ) :
    Matrix (Fin nx ⊕ Fin nu) (Fin nx ⊕ Fin nu) ℝ :=
  fromBlocks Sx Sp 0 1

/-- The directions are that matrix, with controls after states. -/
theorem stackedDirections_yields {Sx : Matrix (Fin nx) (Fin nx) ℝ} {Sp : Matrix (Fin nx) (Fin nu) ℝ}
    (hsx : pool.HasMatrix r σ sx Sx) (hsp : pool.HasMatrix r σ sp Sp) :
    pool.Yields (stackedDirections kind nx nu sx sp) fun after m => after.HasMatrix r σ m
      ((stacked Sx Sp).submatrix finSumFinEquiv.symm finSumFinEquiv.symm) := by
  rw [stackedDirections]
  refine Pool.Yields.check_bind fun states hstates => ?_
  refine (Pool.Yields.lift (zeros_ensures r σ kind nu nx)).bind fun p₁ zero hle₁ hzero => ?_
  refine (Pool.Yields.lift (identity_ensures r σ kind nu)).bind fun p₂ one hle₂ hone => ?_
  refine Pool.Yields.check_bind fun controls hcontrols => Pool.Yields.check fun m hm => ?_
  have hupper := (hasMatrix_beside hsx hsp hstates).of_le (Pool.le_trans hle₁ hle₂)
  have hlower := hasMatrix_beside (hzero.of_le hle₂) hone hcontrols
  have hblocks := hasMatrix_above hupper hlower hm
  convert hblocks using 1
  ext i j
  obtain ⟨k, rfl⟩ := finSumFinEquiv.surjective i
  obtain ⟨l, rfl⟩ := finSumFinEquiv.surjective j
  cases k <;> cases l <;> simp [stacked]

/-! ## Second derivatives -/

section Second

variable {xu lambda gradient directions hessian : ExprMatrix α}

/-- A single column of weights on the rates. Every element of the gradient that is built is known by
its value, wherever the rates are smooth. -/
theorem gradient_yields (hrate : ∀ e ∈ rate.elements, e ∈ pool)
    (hsmooth : ∀ e ∈ rate.elements, e.Within .smooth σ) (hcols : lambda.cols = 1)
    (hfull : lambda.grid.Full) (hlambda : ∀ e ∈ lambda.elements, e ∈ pool ∧ e.isSymbol = true) :
    pool.Yields (rate.reverseDerivative xu lambda) fun after gradient =>
      (lambda.rows = rate.numel ∧ after.HasMatrix .smooth σ gradient ((rate.jacobianAt xu σ)ᵀ *
        (lambda.realAt σ : Matrix (Fin rate.numel) (Fin 1) ℝ))) ∧
      ∀ τ : { τ : Nat → ℝ // ∀ e ∈ rate.elements, e.Within .smooth τ }, ∃ other : Pool α,
        other.HasMatrix .smooth τ gradient ((rate.jacobianAt xu τ)ᵀ *
          (lambda.realAt τ : Matrix (Fin rate.numel) (Fin 1) ℝ)) := by
  have hwithin : ∀ τ : Nat → ℝ, ∀ e ∈ lambda.elements, e ∈ pool ∧ e.Within .smooth τ := by
    intro τ e he
    obtain ⟨hmem, hsymbol⟩ := hlambda e he
    cases e with
    | symbol => exact ⟨hmem, trivial⟩
    | const | unary | binary => exact Bool.noConfusion hsymbol
  refine Pool.Yields.and_forall ?_ fun τ => ?_
  · exact ExprMatrix.reverseDerivative_yields_realAt hrate hsmooth hcols hfull (hwithin σ)
  · exact (ExprMatrix.reverseDerivative_yields_realAt hrate τ.2 hcols hfull (hwithin τ)).imp
      fun _ _ _ h => h.2

/-- **The derivatives of the gradient are the second derivatives of the weighted rates.** -/
theorem jacobianAt_gradient (hsmooth : ∀ e ∈ rate.elements, e.Within .smooth σ)
    (hlambda : ∀ e ∈ lambda.elements, e.isSymbol = true)
    (hother : ∀ e ∈ lambda.elements, ∀ v ∈ xu.elements, e.id ≠ v.id)
    (hgradient : ∀ τ : { τ : Nat → ℝ // ∀ e ∈ rate.elements, e.Within .smooth τ },
      ∃ other : Pool α, other.HasMatrix .smooth τ gradient ((rate.jacobianAt xu τ)ᵀ *
        (lambda.realAt τ : Matrix (Fin rate.numel) (Fin 1) ℝ)))
    (k : Fin gradient.numel) (hk : (k : Nat) < xu.numel) (i : Fin xu.numel) :
    gradient.jacobianAt xu σ k i =
      ∑ l, (((rate.elements.get l).diff (xu.elements.get ⟨k, hk⟩).id).diff
        (xu.elements.get i).id).real σ * lambda.realAt σ l (0 : Fin 1) := by
  refine real_diff_of_real_eq (g := gradient.elements.get k) (w := fun τ l => lambda.realAt τ l 0)
    (fun l => hsmooth _ (List.get_mem _ l)) ?_ (fun τ hτ => ?_) fun t => ?_
  · obtain ⟨_, h⟩ := hgradient ⟨σ, hsmooth⟩
    exact (h.get_column k hk).within trivial
  · -- the value of the gradient is known wherever the rates are smooth, so nearby as well
    have hτ' : ∀ e ∈ rate.elements, e.Within .smooth τ := by
      intro e he
      obtain ⟨l, rfl⟩ := List.get_of_mem he
      exact hτ l
    obtain ⟨_, h⟩ := hgradient ⟨τ, hτ'⟩
    rw [(h.get_column k hk).real, mul_apply]
    rfl
  · -- weights are no coordinates, so they stay when a coordinate moves
    funext l
    refine congrFun₂ (ExprMatrix.realAt_congr fun e he => ?_) l 0
    cases e with
    | symbol id name =>
        rw [real_symbol, real_symbol]
        exact Function.update_of_ne (hother _ he _ (List.get_mem _ i)) t σ
    | const | unary | binary => exact Bool.noConfusion (hlambda _ he)

/-- The second derivative, projected from both sides. -/
theorem projectedHessian_yields {n : Nat} {D H : Matrix (Fin n) (Fin n) ℝ}
    (hgradient : ∀ e ∈ gradient.elements, e ∈ pool ∧ e.Within .smooth σ)
    (hxu : (xu.elements.map Expr.id).Nodup) (hn : n = xu.numel) (hn' : n = gradient.numel)
    (hD : pool.HasMatrix r σ directions D)
    (hH : ∀ i k, gradient.jacobianAt xu σ (Fin.cast hn' i) (Fin.cast hn k) = H i k) :
    pool.Yields (projectedHessian directions gradient xu) fun after m =>
      after.HasMatrix r σ m (Dᵀ * H * D) := by
  subst hn
  rw [projectedHessian]
  have hmoved : pool.Yields (gradient.forwardDerivative xu directions) fun after m =>
      after.HasMatrix r σ m (gradient.jacobianAt xu σ * D) :=
    ExprMatrix.forwardDerivative_yields (fun e he => (hgradient e he).1) hxu
      (fun e he => (hgradient e he).2) hD.cols_eq hD.entry
  refine hmoved.bind fun p₁ moved hle₁ hmoved => ?_
  have hvalue : (gradient.jacobianAt xu σ * D).submatrix (Fin.cast hn') (Fin.cast rfl) = H * D := by
    ext i j
    rw [submatrix_apply, mul_apply, mul_apply]
    exact Finset.sum_congr rfl fun k _ => congrArg (· * D k j) (hH i k)
  have hmoved' := hmoved.cast hn' rfl
  rw [hvalue] at hmoved'
  rw [Matrix.mul_assoc]
  exact mul_yields (hasMatrix_transpose (hD.of_le hle₁)) hmoved'

/-- **The entry at row `i` and column `j` of the lower triangle stands behind the columns before and
the entries above it.** -/
theorem hessianColumn_yields {n : Nat} {M : Matrix (Fin n) (Fin n) ℝ}
    (h : pool.HasMatrix r σ hessian M) :
    pool.Yields (hessianColumn kind n hessian) fun after column =>
      after.HasMatrix r σ column (column.realAt σ : Matrix (Fin (n * (n + 1) / 2)) (Fin 1) ℝ) ∧
        ∀ i j : Fin n, j ≤ i →
          (column.grid.get? (j * n - j * (j - 1) / 2 + (i - j)) 0).map (Expr.real σ) =
            some (M i j) := by
  rw [hessianColumn]
  by_cases hn : n = 0
  · subst hn
    rw [if_pos rfl]
    refine (Pool.Yields.lift (zeros_ensures r σ kind 0 1)).imp fun _ _ _ hzero => ⟨?_, fun i => ?_⟩
    · exact hzero.eq_realAt ▸ hzero
    · exact i.elim0
  · rw [if_neg hn]
    refine Pool.Yields.check fun column hcolumn => ?_
    have htriangle :=
      (ExprMatrix.lowerTriangle_eq_ok_iff (Nat.pos_of_ne_zero hn) h.rows_eq).mp hcolumn
    refine ⟨Pool.hasMatrix_realAt htriangle.shape htriangle.full
      fun e he => h.mem e (htriangle.mem e he), fun i j hij => ?_⟩
    obtain ⟨e, he, hhas⟩ := h.entry i j
    obtain ⟨e', he', hplace⟩ := htriangle.entry i j hij i.isLt
    obtain rfl := Option.some.inj (he.symm.trans (ExprMatrix.get_eq_ok_iff.mp he'))
    have hget : column.grid.get? (j * n - j * (j - 1) / 2 + (i - j)) 0 = some e :=
      ExprMatrix.get_eq_ok_iff.mp hplace
    rw [hget, Option.map_some, hhas.real]

end Second

end ExplicitOde
