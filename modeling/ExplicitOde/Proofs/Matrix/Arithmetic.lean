import ExplicitOde.Matrix.Arithmetic
import ExplicitOde.Proofs.Computation
import ExplicitOde.Proofs.Matrix.Value

/-!
# Values of matrix arithmetic

Matrices of zeros and of symbols, sums, products and transposed matrices have the values that their
names say. The operations build new expressions, so what they are said to do is said of a pool.
-/

namespace ExplicitOde

open ExplicitOde.Expr

variable {α : Type} [ExactScalar α] {r : Regularity} {σ : Nat → ℝ} {pool : Pool α}
  {rows cols : Nat} {A B : Matrix (Fin rows) (Fin cols) ℝ} {a b : ExprMatrix α}

/-! ## New matrices -/

theorem zeros_ensures (r : Regularity) (σ : Nat → ℝ) (kind : Kind) (rows cols : Nat) :
    pool.Ensures (ExprMatrix.zeros kind rows cols) fun after m =>
      after.HasMatrix r σ m (0 : Matrix (Fin rows) (Fin cols) ℝ) := by
  rw [ExprMatrix.zeros]
  refine (mkZero_ensures r σ).bind fun p₁ zero _ hzero => Pool.Ensures.pure ⟨rfl, ?_, ?_⟩
  · simp [Grid.Full]
  · intro i j
    refine ⟨zero, Grid.get?_eq_some_iff.mpr ⟨i.isLt, j.isLt, ?_⟩, hzero⟩
    rw [List.getElem?_replicate, if_pos (Grid.place_lt i.isLt j.isLt)]

omit [ExactScalar α] in
/-- A matrix of new symbols. -/
theorem symbols_ensures (kind : Kind) (name : String) (rows cols : Nat) :
    pool.Ensures (ExprMatrix.symbols kind name rows cols) fun after m =>
      m.kind = kind ∧ m.shape = (rows, cols) ∧ m.grid.Full ∧
        ∀ e ∈ m.elements, e ∈ after ∧ e.isSymbol = true := by
  rw [ExprMatrix.symbols]
  have hcells : pool.Ensures ((List.range (rows * cols)).mapM fun place =>
      mkSymbol (ExprMatrix.symbolName name (rows * cols) place)) fun after cells =>
        List.Forall₂ (fun _ e => e ∈ after ∧ e.isSymbol = true) (List.range (rows * cols)) cells :=
    Pool.Ensures.mapM (fun hle h => ⟨Pool.mem_of_le hle h.1, h.2⟩) fun _ _ _ _ =>
      mkSymbol_ensures _
  refine hcells.bind fun p₁ cells _ h => Pool.Ensures.pure ⟨rfl, rfl, ?_, fun e he => ?_⟩
  · rw [Grid.Full, ← h.length_eq, List.length_range]
  · obtain ⟨_, _, hmem⟩ := Grid.exists_of_mem_forall₂ h he
    exact hmem

/-! ## Sums -/

/-- Sums and differences of elements. -/
theorem elementwise_yields {operation : Operation} {op : BinaryOp}
    (hop : ∀ fixed u v, op.Regular r fixed u v) (ha : pool.HasMatrix r σ a A)
    (hb : pool.HasMatrix r σ b B) :
    pool.Yields (ExprMatrix.elementwise operation op a b) fun after m =>
      after.HasMatrix r σ m (Matrix.of fun i j => op.real (A i j) (B i j)) := by
  rw [ExprMatrix.elementwise]
  refine Pool.Yields.check_bind fun kind _ => ?_
  rw [if_pos (ha.shape.trans hb.shape.symm), mapM_lift]
  have hcells : pool.Ensures ((a.elements.zip b.elements).mapM fun p => mkBinary op p.1 p.2)
      fun after => List.Forall₂
        (fun p e => after.Has r σ e (op.real (p.1.real σ) (p.2.real σ)) True)
        (a.elements.zip b.elements) := by
    refine Pool.Ensures.mapM (fun hle h => h.of_le hle) fun after hle p hp => ?_
    obtain ⟨hx, hx'⟩ := ha.mem p.1 (List.of_mem_zip hp).1
    obtain ⟨hy, hy'⟩ := hb.mem p.2 (List.of_mem_zip hp).2
    have hleft : after.Has r σ p.1 (p.1.real σ) True := ⟨Pool.mem_of_le hle hx, rfl, fun _ => hx'⟩
    have hright : after.Has r σ p.2 (p.2.real σ) True := ⟨Pool.mem_of_le hle hy, rfl, fun _ => hy'⟩
    exact (mkBinary_ensures hleft hright).imp fun _ _ _ h =>
      h.imp fun _ => ⟨trivial, trivial, hop _ _ _⟩
  refine (Pool.Yields.lift hcells).bind fun p₁ cells _ h => Pool.Yields.pure ⟨ha.shape, ?_, ?_⟩
  · have hlen : b.elements.length = a.elements.length := by
      rw [ExprMatrix.elements, ExprMatrix.elements, hb.full, ha.full, ha.rows_eq, ha.cols_eq,
        hb.rows_eq, hb.cols_eq]
    rw [Grid.Full, ← h.length_eq, List.length_zip, hlen, Nat.min_self]
    exact ha.full
  · intro i j
    obtain ⟨x, hx, hxa⟩ := ha.entry i j
    obtain ⟨y, hy, hyb⟩ := hb.entry i j
    obtain ⟨hi, hj, hx⟩ := Grid.get?_eq_some_iff.mp hx
    obtain ⟨_, _, hy⟩ := Grid.get?_eq_some_iff.mp hy
    have hrows : b.grid.rows = a.grid.rows := hb.rows_eq.trans ha.rows_eq.symm
    rw [hrows] at hy
    have hpair : (a.elements.zip b.elements)[(i : Nat) + j * a.grid.rows]? = some (x, y) :=
      List.getElem?_zip_eq_some.mpr ⟨hx, hy⟩
    obtain ⟨e, he, hhas⟩ := Grid.forall₂_getElem? h hpair
    exact ⟨e, Grid.get?_eq_some_iff.mpr ⟨hi, hj, he⟩, hhas.congr (by rw [hxa.real, hyb.real]; rfl)⟩

/-- **The sum of two matrices has the sum of their values.** -/
theorem add_yields (ha : pool.HasMatrix r σ a A) (hb : pool.HasMatrix r σ b B) :
    pool.Yields (ExprMatrix.add a b) fun after m => after.HasMatrix r σ m (A + B) :=
  elementwise_yields (fun _ _ _ => by cases r <;> trivial) ha hb

/-- Sums of matrices of different shapes are refused, so what follows may rely on the shapes. -/
theorem add_yields_of_shapes {post : Pool α → ExprMatrix α → Prop}
    (h : a.shape = b.shape → pool.Yields (ExprMatrix.add a b) post) :
    pool.Yields (ExprMatrix.add a b) post := by
  by_cases hshapes : a.shape = b.shape
  · exact h hshapes
  · rw [ExprMatrix.add, ExprMatrix.elementwise]
    refine Pool.Yields.check_bind fun kind _ => ?_
    rw [if_neg hshapes]
    exact Pool.Yields.fail

/-! ## Products -/

/-- Products of pairs are added to a sum. -/
theorem dotFrom_ensures : ∀ {pairs : List (Expr α × Expr α)} {pool : Pool α} {sum : Expr α} {x : ℝ},
    (∀ p ∈ pairs, pool.Has r σ p.1 (p.1.real σ) True ∧ pool.Has r σ p.2 (p.2.real σ) True) →
    pool.Has r σ sum x True →
    pool.Ensures (pairs.foldlM (fun sum (x, y) => do mkAdd sum (← mkMul x y)) sum) fun after e =>
      after.Has r σ e (x + (pairs.map fun p => p.1.real σ * p.2.real σ).sum) True := by
  intro pairs
  induction pairs with
  | nil =>
      intro pool sum x _ hsum
      exact Pool.Ensures.pure (hsum.congr (by simp))
  | cons p pairs ih =>
      intro pool sum x hpairs hsum
      obtain ⟨hleft, hright⟩ := hpairs p List.mem_cons_self
      have hstep : pool.Ensures (do mkAdd sum (← mkMul p.1 p.2)) fun after e =>
          after.Has r σ e (x + p.1.real σ * p.2.real σ) True := by
        refine (mkMul_ensures hleft hright).bind fun p₁ product hle₁ hproduct => ?_
        exact (mkAdd_ensures (hsum.of_le hle₁) hproduct).imp fun _ _ _ h =>
          h.imp fun _ => ⟨trivial, trivial, trivial⟩
      rw [List.foldlM_cons]
      refine hstep.bind fun p₁ sum' hle₁ hsum' => ?_
      refine (ih (fun q hq => ?_) hsum').imp fun _ _ _ h => h.congr ?_
      · obtain ⟨hl, hr⟩ := hpairs q (List.mem_cons_of_mem p hq)
        exact ⟨hl.of_le hle₁, hr.of_le hle₁⟩
      · rw [List.map_cons, List.sum_cons, add_assoc]

/-- The product of a row and a column. -/
theorem dot_ensures {l n m : Nat} {A : Matrix (Fin l) (Fin n) ℝ} {B : Matrix (Fin n) (Fin m) ℝ}
    (ha : pool.HasMatrix r σ a A) (hb : pool.HasMatrix r σ b B) (i : Fin l) (j : Fin m) :
    pool.Ensures (ExprMatrix.dot (a.grid.rowCells i) (b.grid.columnCells j)) fun after e =>
      after.Has r σ e ((A * B) i j) True := by
  rw [ExprMatrix.dot]
  refine (mkZero_ensures r σ).bind fun p₁ zero hle₁ hzero => ?_
  have hi : (i : Nat) < a.grid.rows := i.isLt.trans_eq ha.rows_eq.symm
  have hj : (j : Nat) < b.grid.cols := j.isLt.trans_eq hb.cols_eq.symm
  have hlen : (a.grid.rowCells i).length = n := by
    rw [ha.full.length_rowCells hi, ha.cols_eq]
  have hrow : ∀ k : Fin n, ∃ x, (a.grid.rowCells i)[(k : Nat)]? = some x ∧ x.real σ = A i k := by
    intro k
    obtain ⟨x, hx, hhas⟩ := ha.entry i k
    exact ⟨x, (ha.full.getElem?_rowCells hi (k.isLt.trans_eq ha.cols_eq.symm)).trans hx, hhas.real⟩
  have hcolumn : ∀ k : Fin n, ∃ y, (b.grid.columnCells j)[(k : Nat)]? = some y ∧
      y.real σ = B k j := by
    intro k
    obtain ⟨y, hy, hhas⟩ := hb.entry k j
    exact ⟨y, (Grid.getElem?_columnCells b.grid hj).trans hy, hhas.real⟩
  have hpairs : ∀ p ∈ (a.grid.rowCells i).zip (b.grid.columnCells j),
      p₁.Has r σ p.1 (p.1.real σ) True ∧ p₁.Has r σ p.2 (p.2.real σ) True := by
    intro p hp
    obtain ⟨hx, hy⟩ := List.of_mem_zip hp
    obtain ⟨k, _, hk⟩ := List.mem_filterMap.mp hx
    obtain ⟨hxmem, hxwithin⟩ := ha.mem p.1 (Grid.mem_of_get? hk)
    obtain ⟨hymem, hywithin⟩ := hb.mem p.2 (Grid.mem_of_mem_columnCells hy)
    exact ⟨⟨Pool.mem_of_le hle₁ hxmem, rfl, fun _ => hxwithin⟩,
      ⟨Pool.mem_of_le hle₁ hymem, rfl, fun _ => hywithin⟩⟩
  refine (dotFrom_ensures hpairs hzero).imp fun _ _ _ h => h.congr ?_
  rw [zero_add, sum_zip hlen hrow hcolumn, Matrix.mul_apply]

/-- **The product of two matrices has the product of their values.** -/
theorem mul_yields {l n m : Nat} {A : Matrix (Fin l) (Fin n) ℝ} {B : Matrix (Fin n) (Fin m) ℝ}
    (ha : pool.HasMatrix r σ a A) (hb : pool.HasMatrix r σ b B) :
    pool.Yields (ExprMatrix.mul a b) fun after product => after.HasMatrix r σ product (A * B) := by
  have hfit : a.cols = b.rows := ha.cols_eq.trans hb.rows_eq.symm
  rw [ExprMatrix.mul]
  refine Pool.Yields.check_bind fun kind _ => ?_
  rw [if_pos hfit]
  have hcells : pool.Ensures (ExprMatrix.productCells a.grid b.grid) fun after =>
      List.Forall₂ (fun p e => ∀ (hi : p.1 < l) (hj : p.2 < m),
        after.Has r σ e ((A * B) ⟨p.1, hi⟩ ⟨p.2, hj⟩) True) (Grid.positions a.rows b.cols) := by
    refine Pool.Ensures.mapM (fun hle h hi hj => (h hi hj).of_le hle) fun after hle p hp => ?_
    obtain ⟨hi, hj⟩ := Grid.mem_positions.mp hp
    have hi' : p.1 < l := ha.rows_eq ▸ hi
    have hj' : p.2 < m := hb.cols_eq ▸ hj
    exact (dot_ensures (ha.of_le hle) (hb.of_le hle) ⟨p.1, hi'⟩ ⟨p.2, hj'⟩).imp
      fun _ _ _ h _ _ => h
  refine (Pool.Yields.lift hcells).bind fun p₁ cells _ h => Pool.Yields.pure ⟨?_, ?_, ?_⟩
  · exact Prod.ext ha.rows_eq hb.cols_eq
  · exact Grid.full_of_cells h
  · intro i j
    obtain ⟨e, he, hhas⟩ := Grid.get?_of_cells h (i.isLt.trans_eq ha.rows_eq.symm)
      (j.isLt.trans_eq hb.cols_eq.symm)
    exact ⟨e, he, hhas i.isLt j.isLt⟩

/-! ## Rows and columns exchanged -/

theorem hasMatrix_transpose (ha : pool.HasMatrix r σ a A) :
    pool.HasMatrix r σ a.transpose A.transpose where
  shape := Prod.ext ha.cols_eq ha.rows_eq
  full := ha.full.transpose
  entry i j := by
    obtain ⟨e, he, hhas⟩ := ha.entry j i
    refine ⟨e, ?_, hhas⟩
    rw [ExprMatrix.transpose, ha.full.get?_transpose (i.isLt.trans_eq ha.cols_eq.symm)
      (j.isLt.trans_eq ha.rows_eq.symm)]
    exact he

end ExplicitOde
