import ExplicitOde.Matrix.Basic
import ExplicitOde.Proofs.Expr.Simplify
import ExplicitOde.Proofs.Grid
import Mathlib.Data.Matrix.Mul

/-!
# Values of matrices of expressions

`ExprMatrix.EvaluatesTo` says that a matrix of expressions has a matrix of real numbers as its
value in exact arithmetic: the shapes are the same, every element is defined, and its value stands
at its position. `Pool.HasMatrix` is the form in which proofs carry it along, with the pool in which
the elements live and the regularity that is asked of them.
-/

-- other types of matrices have products of their own, which are not meant where a size is open
attribute [default_instance 200] Matrix.instHMulOfFintypeOfMulOfAddCommMonoid

namespace ExplicitOde

variable {α : Type} [ExactScalar α] {r : Regularity} {σ : Nat → ℝ} {pool : Pool α} {rows cols : Nat}

/-- Sums over pairs from two lists are sums over places. -/
theorem sum_zip {β γ : Type} {f : β → ℝ} {g : γ → ℝ} : ∀ {xs : List β} {ys : List γ} {n : Nat}
    {u w : Fin n → ℝ}, xs.length = n → (∀ k : Fin n, ∃ x, xs[(k : Nat)]? = some x ∧ f x = u k) →
    (∀ k : Fin n, ∃ y, ys[(k : Nat)]? = some y ∧ g y = w k) →
    ((xs.zip ys).map fun p => f p.1 * g p.2).sum = ∑ k, u k * w k := by
  intro xs
  induction xs with
  | nil =>
      rintro ys n u w rfl _ _
      simp
  | cons x xs ih =>
      rintro ys n u w rfl hx hy
      obtain ⟨x', hx', hu⟩ := hx 0
      obtain ⟨y, hy', hw⟩ := hy 0
      cases ys with
      | nil => simp at hy'
      | cons y' ys =>
          rw [Fin.val_zero, List.getElem?_cons_zero] at hx' hy'
          injection hx' with hx'
          injection hy' with hy'
          have hrest : ((xs.zip ys).map fun p => f p.1 * g p.2).sum =
              ∑ k : Fin xs.length, u k.succ * w k.succ :=
            ih rfl (fun k => hx k.succ) fun k => hy k.succ
          rw [List.zip_cons_cons, List.map_cons, List.sum_cons, hrest, hx', hy', hu, hw]
          exact (Fin.sum_univ_succ (n := xs.length) fun k => u k * w k).symm

/-- The elements of a matrix are defined and have the values of `V`. -/
structure ExprMatrix.EvaluatesTo (m : ExprMatrix α) (σ : Nat → ℝ)
    (V : Matrix (Fin rows) (Fin cols) ℝ) : Prop where
  shape : m.shape = (rows, cols)
  value : ∀ (i : Fin rows) (j : Fin cols), (m.grid.get? i j).bind (Expr.exactValue σ) = some (V i j)

/-- A matrix of a pool that has the values of `V`. -/
structure Pool.HasMatrix (pool : Pool α) (r : Regularity) (σ : Nat → ℝ) (m : ExprMatrix α)
    (V : Matrix (Fin rows) (Fin cols) ℝ) : Prop where
  shape : m.shape = (rows, cols)
  full : m.grid.Full
  entry : ∀ (i : Fin rows) (j : Fin cols), ∃ e, m.grid.get? i j = some e ∧
    pool.Has r σ e (V i j) True

namespace ExprMatrix

omit [ExactScalar α] in
/-- A matrix can be made of elements if there are as many as its shape says. -/
theorem ofElements_eq_ok_iff {kind : Kind} {cells : List (Expr α)} {m : ExprMatrix α} :
    ofElements kind rows cols cells = .ok m ↔
      cells.length = rows * cols ∧ m = ⟨kind, ⟨rows, cols, cells⟩⟩ := by
  rw [ofElements, Grid.ofCells?]
  by_cases h : cells.length = rows * cols
  · rw [if_pos h]
    simp only [Except.ok.injEq, h, true_and]
    exact eq_comm
  · rw [if_neg h]
    simp [h]

/-- A cell of a matrix that has a value, as an expression of the pool. -/
theorem EvaluatesTo.has {m : ExprMatrix α} {V : Matrix (Fin rows) (Fin cols) ℝ}
    (h : m.EvaluatesTo σ V) (hm : ∀ e ∈ m.elements, e ∈ pool) (i : Fin rows) (j : Fin cols) :
    ∃ e, m.grid.get? i j = some e ∧ pool.Has .defined σ e (V i j) True := by
  obtain ⟨e, he, hval⟩ := Option.bind_eq_some_iff.mp (h.value i j)
  obtain ⟨hwithin, hreal⟩ := Expr.exactValue_eq_some_iff.mp hval
  exact ⟨e, he, hm e (Grid.mem_of_get? he), hreal, fun _ => hwithin⟩

end ExprMatrix

/-- The values of the elements by the real functions; zero where there is no element. -/
noncomputable def ExprMatrix.realAt (m : ExprMatrix α) (σ : Nat → ℝ) :
    Matrix (Fin rows) (Fin cols) ℝ :=
  Matrix.of fun i j => ((m.grid.get? i j).map (Expr.real σ)).getD 0

/-- The values of a matrix depend on those of its elements. -/
theorem ExprMatrix.realAt_congr {m : ExprMatrix α} {τ : Nat → ℝ}
    (h : ∀ e ∈ m.elements, e.real σ = e.real τ) :
    (m.realAt σ : Matrix (Fin rows) (Fin cols) ℝ) = m.realAt τ := by
  ext i j
  rw [ExprMatrix.realAt, ExprMatrix.realAt, Matrix.of_apply, Matrix.of_apply]
  cases he : m.grid.get? i j with
  | none => rfl
  | some e => rw [Option.map_some, Option.map_some, h e (Grid.mem_of_get? he)]

namespace Pool.HasMatrix

variable {m : ExprMatrix α} {V : Matrix (Fin rows) (Fin cols) ℝ}

theorem of_le {after : Pool α} (h : pool.HasMatrix r σ m V) (hle : pool ≤ after) :
    after.HasMatrix r σ m V where
  shape := h.shape
  full := h.full
  entry i j := by
    obtain ⟨e, he, hhas⟩ := h.entry i j
    exact ⟨e, he, hhas.of_le hle⟩

theorem rows_eq (h : pool.HasMatrix r σ m V) : m.grid.rows = rows := (Prod.mk.inj h.shape).1

theorem cols_eq (h : pool.HasMatrix r σ m V) : m.grid.cols = cols := (Prod.mk.inj h.shape).2

/-- All elements are in the pool and regular. -/
theorem mem (h : pool.HasMatrix r σ m V) : ∀ e ∈ m.elements, e ∈ pool ∧ e.Within r σ := by
  intro e he
  obtain ⟨n, hn⟩ := List.getElem?_of_mem he
  obtain ⟨i, j, hi, hj, rfl⟩ := Grid.exists_place h.full (List.getElem?_eq_some_iff.mp hn).1
  have hget : m.grid.get? i j = some e := Grid.get?_eq_some_iff.mpr ⟨hi, hj, hn⟩
  obtain ⟨e', he', hhas⟩ := h.entry ⟨i, h.rows_eq ▸ hi⟩ ⟨j, h.cols_eq ▸ hj⟩
  rw [hget] at he'
  injection he' with he'
  exact ⟨he' ▸ hhas.mem, he' ▸ hhas.within trivial⟩

/-- What is known of the values holds in every pool that has the elements. -/
theorem of_mem {other : Pool α} (h : other.HasMatrix r σ m V) (hm : ∀ e ∈ m.elements, e ∈ pool) :
    pool.HasMatrix r σ m V where
  shape := h.shape
  full := h.full
  entry i j := by
    obtain ⟨e, he, hhas⟩ := h.entry i j
    exact ⟨e, he, hm e (Grid.mem_of_get? he), hhas.real, hhas.within⟩

/-- A shape may be written in another way. -/
theorem cast {rows' cols' : Nat} (h : pool.HasMatrix r σ m V) (hrows : rows' = rows)
    (hcols : cols' = cols) :
    pool.HasMatrix r σ m (V.submatrix (Fin.cast hrows) (Fin.cast hcols)) := by
  subst hrows hcols
  exact h

/-- The values are those by the real functions. -/
theorem eq_realAt (h : pool.HasMatrix r σ m V) : V = m.realAt σ := by
  ext i j
  obtain ⟨e, he, hhas⟩ := h.entry i j
  simp [ExprMatrix.realAt, he, hhas.real]

/-- The elements of a single column, one after the other. -/
theorem get_column {V : Matrix (Fin rows) (Fin 1) ℝ} (h : pool.HasMatrix r σ m V)
    (k : Fin m.numel) (hk : (k : Nat) < rows) :
    pool.Has r σ (m.elements.get k) (V ⟨k, hk⟩ 0) True := by
  obtain ⟨e, he, hhas⟩ := h.entry ⟨k, hk⟩ 0
  obtain ⟨_, _, hcell⟩ := Grid.get?_eq_some_iff.mp he
  have hget : m.elements[(k : Nat)]? = some (m.elements.get k) := List.getElem?_eq_getElem k.isLt
  rw [Fin.val_zero, Nat.zero_mul, Nat.add_zero] at hcell
  have heq : m.elements.get k = e := Option.some.inj (hget.symm.trans hcell)
  exact heq ▸ hhas

/-- A single column has as many elements as rows. -/
theorem numel_column {V : Matrix (Fin rows) (Fin 1) ℝ} (h : pool.HasMatrix r σ m V) :
    m.numel = rows := by
  have hfull := h.full
  rw [Grid.Full, h.rows_eq, h.cols_eq, Nat.mul_one] at hfull
  exact hfull

/-- A matrix of defined elements evaluates to their values. -/
theorem evaluatesTo (h : pool.HasMatrix .defined σ m V) : m.EvaluatesTo σ V where
  shape := h.shape
  value i j := by
    obtain ⟨e, he, hhas⟩ := h.entry i j
    rw [he, Option.bind_some]
    exact Expr.exactValue_eq_some_iff.mpr ⟨hhas.within trivial, hhas.real⟩

end Pool.HasMatrix

/-- A full matrix of regular elements has their values. -/
theorem Pool.hasMatrix_realAt {m : ExprMatrix α} (hshape : m.shape = (rows, cols))
    (hfull : m.grid.Full) (hm : ∀ e ∈ m.elements, e ∈ pool ∧ e.Within r σ) :
    pool.HasMatrix r σ m (m.realAt σ : Matrix (Fin rows) (Fin cols) ℝ) := by
  refine ⟨hshape, hfull, fun i j => ?_⟩
  obtain ⟨hrows, hcols⟩ := Prod.mk.inj hshape
  obtain ⟨e, he⟩ := hfull.exists_get? (i.isLt.trans_eq hrows.symm) (j.isLt.trans_eq hcols.symm)
  obtain ⟨hmem, hwithin⟩ := hm e (Grid.mem_of_get? he)
  exact ⟨e, he, hmem, by simp [ExprMatrix.realAt, he], fun _ => hwithin⟩

/-- The identity matrix has the values of the identity matrix. -/
theorem identity_ensures (r : Regularity) (σ : Nat → ℝ) (kind : Kind) (n : Nat) :
    pool.Ensures (ExprMatrix.identity kind n) fun after m =>
      after.HasMatrix r σ m (1 : Matrix (Fin n) (Fin n) ℝ) := by
  rw [ExprMatrix.identity]
  refine (Expr.mkZero_ensures r σ).bind fun p₁ zero hle₁ hzero => ?_
  have hcells : p₁.Ensures ((Grid.positions n n).mapM fun p =>
      if p.1 = p.2 then Expr.mkOne else pure zero) fun after => List.Forall₂
        (fun p e => after.Has r σ e (if p.1 = p.2 then 1 else 0) True) (Grid.positions n n) := by
    refine Pool.Ensures.mapM (fun hle h => h.of_le hle) fun after hle p _ => ?_
    by_cases hp : p.1 = p.2
    · simp only [hp, if_true]
      exact Expr.mkOne_ensures r σ
    · simp only [hp, if_false]
      exact Pool.Ensures.pure (hzero.of_le hle)
  refine hcells.bind fun p₂ cells _ h =>
    Pool.Ensures.pure ⟨rfl, Grid.full_of_cells h, fun i j => ?_⟩
  obtain ⟨e, he, hhas⟩ := Grid.get?_of_cells h i.isLt j.isLt
  exact ⟨e, he, hhas.congr (by simp [Matrix.one_apply, Fin.ext_iff])⟩

end ExplicitOde
