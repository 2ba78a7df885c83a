import ExplicitOde.Proofs.Derivative.Closure
import ExplicitOde.Proofs.Matrix.Arithmetic
import ExplicitOde.Proofs.Matrix.Blocks

/-!
# Operations on matrices that fit succeed

A matrix is proper if it is whole, belongs to a representation or is numeric, and is over certain
symbols. Operations on proper matrices whose shapes fit succeed, and their results are proper.
-/

namespace ExplicitOde

open ExplicitOde.Expr

variable {α : Type} {P : Nat → Prop} {kind : Kind} {rows cols rows' cols' : Nat}

namespace ExprMatrix

/-- A whole matrix of a representation, or of numbers, over certain symbols. -/
structure Proper (kind : Kind) (P : Nat → Prop) (rows cols : Nat) (m : ExprMatrix α) : Prop where
  kind : m.kind = kind ∨ m.kind = .dm
  shape : m.shape = (rows, cols)
  full : m.grid.Full
  isOver : ∀ e ∈ m.elements, e.Over P

variable {a b m : ExprMatrix α}

theorem Proper.rows_eq (h : m.Proper kind P rows cols) : m.grid.rows = rows :=
  (Prod.mk.inj h.shape).1

theorem Proper.cols_eq (h : m.Proper kind P rows cols) : m.grid.cols = cols :=
  (Prod.mk.inj h.shape).2

theorem combinePair_ok (operation : Operation) (ha : a.Proper kind P rows cols)
    (hb : b.Proper kind P rows' cols') :
    ∃ r, combinePair operation a b = .ok r ∧ (r = kind ∨ r = .dm) := by
  have hkinds : ∀ k ∈ [a.kind, b.kind], k = kind ∨ k = .dm := by
    simpa using ⟨ha.kind, hb.kind⟩
  obtain ⟨r, hr, hr', _⟩ := combineKinds_ok operation hkinds
  exact ⟨r, (combinePair_eq_combineKinds operation a b).trans hr, hr'⟩

/-! ## Transposition and blocks -/

theorem Proper.transpose (h : m.Proper kind P rows cols) : m.transpose.Proper kind P cols rows where
  kind := h.kind
  shape := Prod.ext h.cols_eq h.rows_eq
  full := h.full.transpose
  isOver := by
    intro e he
    obtain ⟨i, _, hi⟩ := List.mem_flatMap.mp he
    obtain ⟨j, _, hj⟩ := List.mem_filterMap.mp hi
    exact h.isOver e (Grid.mem_of_get? hj)

/-- Matrices of equally many rows can be put side by side. -/
theorem beside_proper (ha : a.Proper kind P rows cols) (hb : b.Proper kind P rows cols') :
    ∃ m, beside [a, b] = .ok m ∧ m.Proper kind P rows (cols + cols') := by
  have hkinds : ∀ k ∈ [a, b].map ExprMatrix.kind, k = kind ∨ k = .dm := by
    simpa using ⟨ha.kind, hb.kind⟩
  have hparts : ∀ p ∈ [a, b], p.grid.Full ∧ p.grid.rows = rows := by
    simpa using ⟨⟨ha.full, ha.rows_eq⟩, hb.full, hb.rows_eq⟩
  obtain ⟨k, hk, hkind, _⟩ := Kind.exists_common_of_forall hkinds
  obtain ⟨m, hm, hmk⟩ := beside_succeeds hk fun p hp => (hparts p hp).2
  have hgrid := grid_beside (List.cons_ne_nil a [b]) hparts hm
  refine ⟨m, hm, hmk ▸ hkind, ?_, ?_, ?_⟩
  · rw [ExprMatrix.shape, hgrid, Grid.shape]
    simp [Grid.besideAll, ha.cols_eq, hb.cols_eq]
  · rw [hgrid]
    exact Grid.full_besideAll (List.forall_mem_map.mpr hparts)
  · rw [elements, hgrid]
    intro e he
    obtain ⟨g, hg, hcell⟩ := List.mem_flatMap.mp he
    simp only [List.map_cons, List.map_nil, List.mem_cons, List.not_mem_nil, or_false] at hg
    rcases hg with rfl | rfl
    · exact ha.isOver e hcell
    · exact hb.isOver e hcell

/-- Matrices of equally many columns can be put one above the other. -/
theorem above_proper (ha : a.Proper kind P rows cols) (hb : b.Proper kind P rows' cols) :
    ∃ m, above [a, b] = .ok m ∧ m.Proper kind P (rows + rows') cols := by
  have hkinds : ∀ k ∈ [a, b].map ExprMatrix.kind, k = kind ∨ k = .dm := by
    simpa using ⟨ha.kind, hb.kind⟩
  have hparts : ∀ p ∈ [a, b], p.grid.Full ∧ p.grid.cols = cols := by
    simpa using ⟨⟨ha.full, ha.cols_eq⟩, hb.full, hb.cols_eq⟩
  obtain ⟨k, hk, hkind, _⟩ := Kind.exists_common_of_forall hkinds
  obtain ⟨m, hm, hmk⟩ := above_succeeds hk fun p hp => (hparts p hp).2
  have hgrid := grid_above (List.cons_ne_nil a [b]) hparts hm
  refine ⟨m, hm, hmk ▸ hkind, ?_, ?_, ?_⟩
  · rw [ExprMatrix.shape, hgrid, Grid.shape]
    simp [Grid.aboveAll, ha.rows_eq, hb.rows_eq]
  · rw [hgrid]
    exact Grid.full_aboveAll (List.forall_mem_map.mpr hparts)
  · rw [elements, hgrid]
    intro e he
    obtain ⟨j, _, hj⟩ := List.mem_flatMap.mp he
    obtain ⟨g, hg, hcell⟩ := List.mem_flatMap.mp hj
    have hmem := Grid.mem_of_mem_columnCells hcell
    simp only [List.map_cons, List.map_nil, List.mem_cons, List.not_mem_nil, or_false] at hg
    rcases hg with rfl | rfl
    · exact ha.isOver e hmem
    · exact hb.isOver e hmem

/-! ## Arithmetic -/

variable [Scalar α]

theorem zeros_proper (kind : Kind) (P : Nat → Prop) (rows cols : Nat) :
    Always (zeros kind rows cols : Build (ExprMatrix α)) (Proper kind P rows cols) := by
  refine (over_mkZero P).bind fun zero hzero => Always.pure ⟨Or.inl rfl, rfl, ?_, ?_⟩
  · rw [Grid.Full, List.length_replicate]
  · intro e he
    rw [List.eq_of_mem_replicate he]
    exact hzero

theorem identity_proper (kind : Kind) (P : Nat → Prop) (n : Nat) :
    Always (identity kind n : Build (ExprMatrix α)) (Proper kind P n n) := by
  refine (over_mkZero P).bind fun zero hzero => ?_
  have hcells : Always ((Grid.positions n n).mapM fun p =>
      if p.1 = p.2 then mkOne else pure zero : Build (List (Expr α))) fun cells =>
        (∀ e ∈ cells, e.Over P) ∧ cells.length = n * n := by
    intro k
    refine ⟨Always.mapM (fun p _ => ?_) k, ?_⟩
    · show Always (if p.1 = p.2 then mkOne else pure zero) (Over P)
      split
      · exact over_mkOne P
      · exact Always.pure hzero
    · rw [length_mapM_build, Grid.length_positions]
  exact hcells.bind fun cells h => Always.pure ⟨Or.inl rfl, rfl, h.2, h.1⟩

/-- Matrices of one shape can be added. -/
theorem add_proper (ha : a.Proper kind P rows cols) (hb : b.Proper kind P rows cols) :
    Succeeds (add a b) (Proper kind P rows cols) := by
  obtain ⟨k, hk, hkind⟩ := combinePair_ok .plus ha hb
  rw [add, elementwise]
  refine Succeeds.check_bind hk ?_
  rw [if_pos (ha.shape.trans hb.shape.symm), mapM_lift]
  have hcells : Always ((a.elements.zip b.elements).mapM fun p => mkBinary .add p.1 p.2)
      fun cells => (∀ e ∈ cells, e.Over P) ∧ cells.length = rows * cols := by
    intro n
    refine ⟨Always.mapM (fun p hp => ?_) n, ?_⟩
    · exact over_mkBinary .add (ha.isOver _ (List.of_mem_zip hp).1)
        (hb.isOver _ (List.of_mem_zip hp).2)
    · have hlen : a.elements.length = rows * cols := by
        rw [elements, ha.full, ha.rows_eq, ha.cols_eq]
      have hlen' : b.elements.length = rows * cols := by
        rw [elements, hb.full, hb.rows_eq, hb.cols_eq]
      rw [length_mapM_build, List.length_zip, hlen, hlen', Nat.min_self]
  refine (Succeeds.lift hcells).bind fun cells h => Succeeds.pure ⟨hkind, ha.shape, ?_, h.1⟩
  rw [Grid.Full, h.2, ExprMatrix.rows, ExprMatrix.cols, ha.rows_eq, ha.cols_eq]

theorem over_dot {xs ys : List (Expr α)} (hxs : ∀ x ∈ xs, x.Over P) (hys : ∀ y ∈ ys, y.Over P) :
    Always (dot xs ys) (Over P) := by
  refine (over_mkZero P).bind fun zero hzero => Always.foldlM hzero fun sum hsum p hp => ?_
  obtain ⟨x, y⟩ := p
  refine (over_mkMul (hxs x (List.of_mem_zip hp).1) (hys y (List.of_mem_zip hp).2)).bind ?_
  exact fun product hproduct => over_mkAdd hsum hproduct

/-- Matrices whose shapes fit can be multiplied. -/
theorem mul_proper {n : Nat} (ha : a.Proper kind P rows n) (hb : b.Proper kind P n cols) :
    Succeeds (mul a b) (Proper kind P rows cols) := by
  obtain ⟨k, hk, hkind⟩ := combinePair_ok .product ha hb
  have hfit : a.cols = b.rows := ha.cols_eq.trans hb.rows_eq.symm
  rw [mul]
  refine Succeeds.check_bind hk ?_
  rw [if_pos hfit]
  have hcells : Always (productCells a.grid b.grid) fun cells =>
      (∀ e ∈ cells, e.Over P) ∧ cells.length = rows * cols := by
    intro n
    refine ⟨Always.mapM (fun p _ => ?_) n, ?_⟩
    · refine over_dot (fun x hx => ?_) fun y hy => hb.isOver y (Grid.mem_of_mem_columnCells hy)
      obtain ⟨j, _, hj⟩ := List.mem_filterMap.mp hx
      exact ha.isOver x (Grid.mem_of_get? hj)
    · rw [productCells, length_mapM_build, Grid.length_positions, ha.rows_eq, hb.cols_eq]
  exact (Succeeds.lift hcells).bind fun cells h =>
    Succeeds.pure ⟨hkind, Prod.ext ha.rows_eq hb.cols_eq,
      h.2.trans (congrArg₂ (· * ·) ha.rows_eq.symm hb.cols_eq.symm), h.1⟩

/-! ## Derivatives -/

variable {expr arg seed : ExprMatrix α}

omit [Scalar α] in
theorem symbolIds_of_symbols (h : ∀ e ∈ arg.elements, e.isSymbol = true) :
    arg.symbolIds = .ok (arg.elements.map Expr.id) := by
  refine mapM_eq_ok_iff.mpr (List.forall₂_map_right_iff.mpr (List.forall₂_same.mpr fun e he => ?_))
  cases e with
  | symbol => rfl
  | const | unary | binary => exact Bool.noConfusion (h _ he)

omit [Scalar α] in
theorem numel_of_proper (h : m.Proper kind P rows 1) : m.numel = rows := by
  have hfull := h.full
  rw [Grid.Full, h.rows_eq, h.cols_eq, Nat.mul_one] at hfull
  exact hfull

omit [Scalar α] in
theorem forall_columnCells (h : m.Proper kind P rows cols) (j : Nat) :
    ∀ e ∈ m.grid.columnCells j, e.Over P :=
  fun e he => h.isOver e (Grid.mem_of_mem_columnCells he)

omit [Scalar α] in
/-- Columns of equal length make up a proper matrix. -/
theorem columns_proper {f : Nat → Build (List (Expr α))} {k : Kind} (hk : k = kind ∨ k = .dm)
    (hlen : ∀ j n, (f j n).1.length = rows)
    (hover : ∀ j, Always (f j) fun es => ∀ e ∈ es, e.Over P) :
    Succeeds (do
      let columns ← ((List.range cols).mapM f : Build _)
      ofElements k rows cols columns.flatten : Attempt AlgebraError (ExprMatrix α))
      (Proper kind P rows cols) := by
  have hcolumns : Always ((List.range cols).mapM f) fun columns =>
      columns.flatten.length = rows * cols ∧ ∀ e ∈ columns.flatten, e.Over P := by
    intro n
    have hlens : Always ((List.range cols).mapM f) fun columns => ∀ c ∈ columns, c.length = rows :=
      Always.mapM fun j _ k => hlen j k
    have hovers : Always ((List.range cols).mapM f) fun columns =>
        ∀ c ∈ columns, ∀ e ∈ c, e.Over P := Always.mapM fun j _ => hover j
    have hcount := Grid.length_flatten (hlens n)
    rw [length_mapM_build, List.length_range] at hcount
    refine ⟨hcount, fun e he => ?_⟩
    obtain ⟨c, hc, hec⟩ := List.mem_flatten.mp he
    exact hovers n c hc e hec
  refine (Succeeds.lift hcolumns).bind fun columns h => ?_
  exact Succeeds.check (ofElements_eq_ok_iff.mpr ⟨h.1, rfl⟩) ⟨hk, rfl, h.1, h.2⟩

/-- Where a seed has a row for every symbol there is a forward derivative. -/
theorem forwardDerivative_proper {n : Nat} (hexpr : expr.Proper kind P rows 1)
    (harg : arg.Proper kind P n 1) (hsymbols : ∀ e ∈ arg.elements, e.isSymbol = true)
    (hseed : seed.Proper kind P n cols) :
    Succeeds (expr.forwardDerivative arg seed) (Proper kind P rows cols) := by
  have hkinds : ∀ k ∈ [expr.kind, arg.kind, seed.kind], k = kind ∨ k = .dm := by
    simpa using ⟨hexpr.kind, harg.kind, hseed.kind⟩
  obtain ⟨k, hk, hkind, _⟩ := combineKinds_ok .directional hkinds
  have hrows : seed.rows = arg.numel := hseed.rows_eq.trans (numel_of_proper harg).symm
  rw [forwardDerivative]
  refine Succeeds.check_bind hk ?_
  rw [if_neg (not_not.mpr hrows)]
  refine Succeeds.check_bind (symbolIds_of_symbols hsymbols) ?_
  simp only [mapM_lift]
  rw [numel_of_proper hexpr, ExprMatrix.cols, hseed.cols_eq]
  refine columns_proper hkind (fun j n => ?_) fun j => ?_
  · exact (length_mapM_build _ _ _).trans (numel_of_proper hexpr)
  · exact over_tangents (over_evaluationOrder hexpr.isOver)
      (tableOver_directionOf (forall_columnCells hseed j))

/-- There is a Jacobian matrix with respect to any symbols. -/
theorem jacobian_proper {n : Nat} (hexpr : expr.Proper kind P rows 1)
    (harg : arg.Proper kind P n 1) (hsymbols : ∀ e ∈ arg.elements, e.isSymbol = true) :
    Succeeds (expr.jacobian arg) (Proper kind P rows n) := by
  rw [jacobian, numel_of_proper harg]
  refine (Succeeds.lift (identity_proper .dm P n)).bind fun unit hunit => ?_
  have hunit' : unit.Proper kind P n n := ⟨Or.inr (hunit.kind.elim id id), hunit.shape, hunit.full,
    hunit.isOver⟩
  exact forwardDerivative_proper hexpr harg hsymbols hunit'

/-- Where a seed has a row for every element there is a reverse derivative. -/
theorem reverseDerivative_proper {n : Nat} (hexpr : expr.Proper kind P rows 1)
    (harg : arg.Proper kind P n 1) (hsymbols : ∀ e ∈ arg.elements, e.isSymbol = true)
    (hseed : seed.Proper kind P rows cols) :
    Succeeds (expr.reverseDerivative arg seed) (Proper kind P n cols) := by
  have hkinds : ∀ k ∈ [expr.kind, arg.kind, seed.kind], k = kind ∨ k = .dm := by
    simpa using ⟨hexpr.kind, harg.kind, hseed.kind⟩
  obtain ⟨k, hk, hkind, _⟩ := combineKinds_ok .directional hkinds
  have hrows : seed.rows = expr.numel := hseed.rows_eq.trans (numel_of_proper hexpr).symm
  have hcount : (arg.elements.map Expr.id).length = n := by
    rw [List.length_map]
    exact numel_of_proper harg
  rw [reverseDerivative_eq]
  refine Succeeds.check_bind hk ?_
  rw [if_neg (not_not.mpr hrows)]
  refine Succeeds.check_bind (symbolIds_of_symbols hsymbols) ?_
  rw [hcount, ExprMatrix.cols, hseed.cols_eq]
  refine columns_proper hkind (fun j n => ?_) fun j => ?_
  · exact (length_mapM_build _ _ _).trans hcount
  · exact over_reverseColumn hexpr.isOver (forall_columnCells hseed j)

end ExprMatrix

end ExplicitOde
