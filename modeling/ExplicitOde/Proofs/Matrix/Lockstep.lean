import ExplicitOde.Matrix.Arithmetic
import ExplicitOde.Matrix.Blocks
import ExplicitOde.Proofs.Derivative.Lockstep
import ExplicitOde.Proofs.Grid

/-!
# Matrices in step

Matrices are alike if they have one kind and one shape and elements that are alike, place by place.
Where cells go is decided by shapes alone, so **operations on matrices that are alike succeed or
fail together**, and make matrices that are alike.
-/

namespace ExplicitOde

open Relator (BiUnique)
open ExplicitOde.Expr

/-! ## Grids -/

namespace Grid

variable {β γ : Type} {R : β → γ → Prop}

/-- Grids of one shape whose cells are related. -/
structure Related (R : β → γ → Prop) (g : Grid β) (g' : Grid γ) : Prop where
  rows : g.rows = g'.rows
  cols : g.cols = g'.cols
  cells : List.Forall₂ R g.cells g'.cells

theorem rel_getElem? {bs : List β} {cs : List γ} (h : List.Forall₂ R bs cs) (n : Nat) :
    Option.Rel R bs[n]? cs[n]? := by
  induction h generalizing n with
  | nil => exact .none
  | cons hc _ ih =>
      cases n with
      | zero => exact .some hc
      | succ n => exact ih n

/-- What is made of one list, related element by element. -/
theorem rel_flatMap_self {δ : Type} {ds : List δ} {f : δ → List β} {f' : δ → List γ}
    (h : ∀ d, List.Forall₂ R (f d) (f' d)) : List.Forall₂ R (ds.flatMap f) (ds.flatMap f') := by
  induction ds with
  | nil => exact .nil
  | cons d ds ih =>
      rw [List.flatMap_cons, List.flatMap_cons]
      exact List.rel_append (h d) ih

variable {g : Grid β} {g' : Grid γ}

theorem Related.shape (h : g.Related R g') : g.shape = g'.shape :=
  Prod.ext h.rows h.cols

theorem Related.numel (h : g.Related R g') : g.numel = g'.numel :=
  h.cells.length_eq

theorem Related.columnCells (h : g.Related R g') (col : Nat) :
    List.Forall₂ R (g.columnCells col) (g'.columnCells col) := by
  rw [Grid.columnCells, Grid.columnCells, h.rows]
  exact List.forall₂_take _ (List.forall₂_drop _ h.cells)

theorem Related.get? (h : g.Related R g') (row col : Nat) :
    Option.Rel R (g.get? row col) (g'.get? row col) := by
  rw [Grid.get?, Grid.get?]
  refine rel_ite (by rw [h.rows, h.cols]) ?_ .none
  rw [h.rows]
  exact rel_getElem? h.cells _

theorem Related.rowCells (h : g.Related R g') (row : Nat) :
    List.Forall₂ R (g.rowCells row) (g'.rowCells row) := by
  rw [Grid.rowCells, Grid.rowCells, h.cols]
  refine List.rel_filterMap (R := Eq) ?_ (List.forall₂_refl _)
  rintro col _ rfl
  exact h.get? row col

theorem Related.transpose (h : g.Related R g') : g.transpose.Related R g'.transpose where
  rows := h.cols
  cols := h.rows
  cells := by
    rw [Grid.transpose, Grid.transpose, h.rows]
    exact rel_flatMap_self fun row => h.rowCells row

end Grid

/-! ## Matrices -/

namespace ExprMatrix

variable {α : Type} {ρ : Nat → Nat → Prop} {ε : Type}

/-- Matrices of one kind and shape with elements that are alike. -/
structure Alike (ρ : Nat → Nat → Prop) (m m' : ExprMatrix α) : Prop where
  kind : m.kind = m'.kind
  grid : m.grid.Related (Expr.Alike ρ) m'.grid

variable {m m' a a' b b' : ExprMatrix α}

theorem Alike.shape_eq (h : m.Alike ρ m') : m.shape = m'.shape := h.grid.shape

theorem Alike.rows_eq (h : m.Alike ρ m') : m.rows = m'.rows := h.grid.rows

theorem Alike.cols_eq (h : m.Alike ρ m') : m.cols = m'.cols := h.grid.cols

theorem Alike.numel_eq (h : m.Alike ρ m') : m.numel = m'.numel := h.grid.numel

theorem Alike.elements (h : m.Alike ρ m') :
    List.Forall₂ (Expr.Alike ρ) m.elements m'.elements := h.grid.cells

theorem Alike.isSymbolic_eq (h : m.Alike ρ m') : m.isSymbolic = m'.isSymbolic := by
  have hall : ∀ {es es' : List (Expr α)}, List.Forall₂ (Expr.Alike ρ) es es' →
      es.all Expr.isSymbol = es'.all Expr.isSymbol := by
    intro es es' hes
    induction hes with
    | nil => rfl
    | cons he _ ih => rw [List.all_cons, List.all_cons, he.isSymbol_eq, ih]
  exact hall h.elements

theorem Alike.transpose (h : m.Alike ρ m') : m.transpose.Alike ρ m'.transpose :=
  ⟨h.kind, h.grid.transpose⟩

/-- If every identity is related to one, there is a matrix like each. -/
theorem exists_other (hρ : ∀ i, ∃ j, ρ i j) :
    ∃ other : ExprMatrix α → ExprMatrix α, ∀ m : ExprMatrix α, m.Alike ρ (other m) := by
  choose other hother using Expr.exists_alike (α := α) hρ
  refine ⟨fun m => ⟨m.kind, m.grid.map other⟩, fun m => ⟨rfl, rfl, rfl, ?_⟩⟩
  exact List.forall₂_map_right_iff.mpr (List.forall₂_same.mpr fun e _ => hother e)

theorem alike_column (kind : Kind) {es es' : List (Expr α)}
    (h : List.Forall₂ (Expr.Alike ρ) es es') : (column kind es).Alike ρ (column kind es') :=
  ⟨rfl, h.length_eq, rfl, h⟩

theorem kinds_eq {ms ms' : List (ExprMatrix α)} (h : List.Forall₂ (Alike ρ) ms ms') :
    ms.map ExprMatrix.kind = ms'.map ExprMatrix.kind := by
  rw [← List.forall₂_eq_eq_eq]
  exact List.rel_map (fun _ _ hm => hm.kind) h

theorem ofElements_alike (kind : Kind) (rows cols : Nat) {es es' : List (Expr α)}
    (h : List.Forall₂ (Expr.Alike ρ) es es') :
    Outcome (Alike ρ) (ofElements kind rows cols es) (ofElements kind rows cols es') := by
  unfold ofElements Grid.ofCells?
  by_cases hfit : es.length = rows * cols
  · rw [if_pos hfit, if_pos (h.length_eq ▸ hfit)]
    exact .ok ⟨rfl, rfl, rfl, h⟩
  · rw [if_neg hfit, if_neg (h.length_eq ▸ hfit)]
    exact .error

theorem get_alike (h : m.Alike ρ m') (row col : Nat) :
    Outcome (Expr.Alike ρ) (m.get row col) (m'.get row col) := by
  have hcell := h.grid.get? row col
  rw [get, get]
  generalize m.grid.get? row col = e at hcell
  generalize m'.grid.get? row col = e' at hcell
  cases hcell with
  | some he => exact .ok he
  | none => exact .error

theorem element_alike (h : m.Alike ρ m') (row col : Nat) :
    Outcome (Alike ρ) (m.element row col) (m'.element row col) := by
  rw [element, element, h.kind]
  exact (get_alike h row col).bind fun e e' he => .ok (alike_column _ (.cons he .nil))

/-! ## New matrices -/

theorem inStep_symbols (kind : Kind) (name name' : String) (rows cols : Nat) :
    InStep ρ (symbols kind name rows cols : Build (ExprMatrix α)) (symbols kind name' rows cols)
      (Alike ρ) :=
  (InStep.mapM_self fun _ => inStep_mkSymbol _ _).bind fun _ _ hcells =>
    .pure ⟨rfl, rfl, rfl, hcells⟩

/-- Equally many new symbols are alike, whatever they are called. -/
theorem inStep_namedSymbols (kind : Kind) {names names' : List String}
    (h : names.length = names'.length) :
    InStep ρ (namedSymbols kind names : Build (ExprMatrix α)) (namedSymbols kind names')
      (Alike ρ) := by
  have hnames : List.Forall₂ (fun _ _ => True) names names' :=
    List.forall₂_iff_zip.mpr ⟨h, fun _ => trivial⟩
  exact (InStep.mapM hnames fun _ _ _ => inStep_mkSymbol _ _).bind
    fun _ _ hes => .pure (alike_column kind hes)

theorem inStep_numeric (values : Grid α) :
    InStep ρ (numeric values : Build (ExprMatrix α)) (numeric values) (Alike ρ) :=
  (InStep.mapM_self fun v => inStep_mkConst v).bind fun _ _ hcells => .pure ⟨rfl, rfl, rfl, hcells⟩

variable [Scalar α]

theorem inStep_zeros (kind : Kind) (rows cols : Nat) :
    InStep ρ (zeros kind rows cols : Build (ExprMatrix α)) (zeros kind rows cols) (Alike ρ) := by
  refine inStep_mkZero.bind fun zero zero' hzero => .pure ⟨rfl, rfl, rfl, ?_⟩
  exact List.forall₂_iff_get.mpr ⟨by simp, fun i _ _ => by simpa using hzero⟩

theorem inStep_identity (kind : Kind) (n : Nat) :
    InStep ρ (identity kind n : Build (ExprMatrix α)) (identity kind n) (Alike ρ) := by
  refine inStep_mkZero.bind fun zero zero' hzero => ?_
  exact (InStep.mapM_self fun p => .ite Iff.rfl inStep_mkOne (.pure hzero)).bind
    fun _ _ hcells => .pure ⟨rfl, rfl, rfl, hcells⟩

/-! ## Arithmetic -/

omit [Scalar α] in
theorem combinePair_eq (operation : Operation) (ha : a.Alike ρ a') (hb : b.Alike ρ b') :
    combinePair operation a b = combinePair operation a' b' := by
  rw [combinePair, combinePair, ha.kind, hb.kind]

theorem together_add (hρ : BiUnique ρ) (ha : a.Alike ρ a') (hb : b.Alike ρ b') :
    Together ρ (add a b) (add a' b') (Alike ρ) := by
  have hpairs : List.Forall₂ (fun p p' => p.1.Alike ρ p'.1 ∧ p.2.Alike ρ p'.2)
      (a.elements.zip b.elements) (a'.elements.zip b'.elements) :=
    forall₂_zip_zip ha.elements hb.elements
  rw [add, elementwise, add, elementwise, combinePair_eq _ ha hb, mapM_lift, mapM_lift]
  refine .check_bind_self fun kind => ?_
  refine .ite (by rw [ha.shape_eq, hb.shape_eq]) ?_ (.throw _ _)
  have hcells := InStep.mapM hpairs fun p p' hp => inStep_mkBinary hρ .add hp.1 hp.2
  exact (Together.lift hcells).bind fun cells cells' h => .pure ⟨rfl, ha.rows_eq, ha.cols_eq, h⟩

theorem inStep_dot (hρ : BiUnique ρ) {xs xs' ys ys' : List (Expr α)}
    (hxs : List.Forall₂ (Expr.Alike ρ) xs xs') (hys : List.Forall₂ (Expr.Alike ρ) ys ys') :
    InStep ρ (dot xs ys) (dot xs' ys') (Expr.Alike ρ) := by
  refine inStep_mkZero.bind fun zero zero' hzero => ?_
  refine .foldlM (forall₂_zip_zip hxs hys) (fun sum sum' hsum p p' hp => ?_) hzero
  exact (inStep_mkMul hρ hp.1 hp.2).bind fun product product' hproduct =>
    inStep_mkAdd hρ hsum hproduct

theorem together_mul (hρ : BiUnique ρ) (ha : a.Alike ρ a') (hb : b.Alike ρ b') :
    Together ρ (mul a b) (mul a' b') (Alike ρ) := by
  have hcells : InStep ρ (productCells a.grid b.grid) (productCells a'.grid b'.grid)
      (List.Forall₂ (Expr.Alike ρ)) := by
    rw [productCells, productCells, ha.grid.rows, hb.grid.cols]
    exact .mapM_self fun p => inStep_dot hρ (ha.grid.rowCells p.1) (hb.grid.columnCells p.2)
  rw [mul, mul, combinePair_eq _ ha hb]
  refine .check_bind_self fun kind => ?_
  refine .ite (by rw [ha.cols_eq, hb.rows_eq]) ?_ (.throw _ _)
  exact (Together.lift hcells).bind fun cells cells' h => .pure ⟨rfl, ha.rows_eq, hb.cols_eq, h⟩

/-! ## Blocks -/

omit [Scalar α] in
theorem blocks_related {parts parts' : List (ExprMatrix α)}
    (h : List.Forall₂ (Alike ρ) parts parts') :
    List.Forall₂ (Grid.Related (Expr.Alike ρ)) (blocks parts) (blocks parts') := by
  refine List.rel_filter (fun g g' hg => ?_) (List.rel_map (fun _ _ hm => hm.grid) h)
  simp only [Grid.isNothing, hg.rows, hg.cols]

omit [Scalar α] in
theorem checkShapes_related (operation : Operation) {agrees agrees' : Grid (Expr α) → Bool}
    (hagrees : ∀ g g', g.Related (Expr.Alike ρ) g' → agrees g = agrees' g')
    (first first' : Grid (Expr α)) {others others' : List (Grid (Expr α))}
    (h : List.Forall₂ (Grid.Related (Expr.Alike ρ)) others others') :
    Outcome Eq (checkShapes operation agrees first others)
      (checkShapes operation agrees' first' others') := by
  have hfind : Option.Rel (Grid.Related (Expr.Alike ρ)) (others.find? fun g => !agrees g)
      (others'.find? fun g => !agrees' g) := by
    induction h with
    | nil => exact .none
    | cons hg _ ih =>
        rw [List.find?_cons, List.find?_cons, hagrees _ _ hg]
        split
        · exact .some hg
        · exact ih
  unfold checkShapes
  generalize (others.find? fun g => !agrees g) = g at hfind
  generalize (others'.find? fun g => !agrees' g) = g' at hfind
  cases hfind with
  | none => exact .ok rfl
  | some => exact .error

omit [Scalar α] in
/-- A list of related grids has the same numbers of rows and of columns. -/
theorem map_eq_of_related {gs gs' : List (Grid (Expr α))} {size : Grid (Expr α) → Nat}
    (hsize : ∀ g g', g.Related (Expr.Alike ρ) g' → size g = size g')
    (h : List.Forall₂ (Grid.Related (Expr.Alike ρ)) gs gs') : gs.map size = gs'.map size := by
  rw [← List.forall₂_eq_eq_eq]
  exact List.rel_map (fun _ _ hg => hsize _ _ hg) h

omit [Scalar α] in
theorem beside_alike {parts parts' : List (ExprMatrix α)}
    (h : List.Forall₂ (Alike ρ) parts parts') :
    Outcome (Alike ρ) (beside parts) (beside parts') := by
  have hblocks := blocks_related h
  rw [beside, beside, kinds_eq h]
  refine .bind_self fun kind => ?_
  generalize blocks parts = gs at hblocks
  generalize blocks parts' = gs' at hblocks
  cases hblocks with
  | nil => exact .ok ⟨rfl, rfl, rfl, .nil⟩
  | @cons first first' others others' hfirst hothers =>
      have hall := List.Forall₂.cons hfirst hothers
      refine (checkShapes_related .beside (fun g g' hg => by rw [hg.rows, hfirst.rows]) _ _
        hothers).bind fun _ _ _ => .ok ⟨rfl, hfirst.rows, ?_, ?_⟩
      · exact congrArg (List.foldr (· + ·) 0) (map_eq_of_related (fun _ _ hg => hg.cols) hall)
      · exact List.rel_flatMap hall fun _ _ hg => hg.cells

omit [Scalar α] in
theorem above_alike {parts parts' : List (ExprMatrix α)}
    (h : List.Forall₂ (Alike ρ) parts parts') :
    Outcome (Alike ρ) (above parts) (above parts') := by
  have hblocks := blocks_related h
  rw [above, above, kinds_eq h]
  refine .bind_self fun kind => ?_
  generalize blocks parts = gs at hblocks
  generalize blocks parts' = gs' at hblocks
  cases hblocks with
  | nil => exact .ok ⟨rfl, rfl, rfl, .nil⟩
  | @cons first first' others others' hfirst hothers =>
      have hall := List.Forall₂.cons hfirst hothers
      refine (checkShapes_related .above (fun g g' hg => by rw [hg.cols, hfirst.cols]) _ _
        hothers).bind fun _ _ _ => .ok ⟨rfl, ?_, hfirst.cols, ?_⟩
      · exact congrArg (List.foldr (· + ·) 0) (map_eq_of_related (fun _ _ hg => hg.rows) hall)
      · rw [hfirst.cols]
        exact Grid.rel_flatMap_self fun col =>
          List.rel_flatMap hall fun _ _ hg => hg.columnCells col

omit [Scalar α] in
theorem lowerTriangle_alike (h : m.Alike ρ m') :
    Outcome (Alike ρ) m.lowerTriangle m'.lowerTriangle := by
  rw [lowerTriangle, lowerTriangle, h.rows_eq]
  have hparts : Outcome (List.Forall₂ (Alike ρ))
      ((lowerPositions m'.rows).mapM fun p => m.element p.1 p.2)
      ((lowerPositions m'.rows).mapM fun p => m'.element p.1 p.2) :=
    .mapM_self fun p => element_alike h p.1 p.2
  exact hparts.bind fun _ _ => above_alike

/-! ## Derivatives -/

variable {expr expr' arg arg' seed seed' : ExprMatrix α}

omit [Scalar α] in
theorem symbolIds_alike (h : arg.Alike ρ arg') :
    Outcome (List.Forall₂ ρ) arg.symbolIds arg'.symbolIds := by
  refine .mapM h.elements fun e e' he => ?_
  cases he with
  | symbol hid => exact .ok hid
  | const | unary | binary => exact .error

omit [Scalar α] in
/-- Columns that are made in step make matrices that are alike. -/
theorem together_columns {f f' : Nat → Build (List (Expr α))} (kind : Kind) (rows cols : Nat)
    (h : ∀ j, InStep ρ (f j) (f' j) (List.Forall₂ (Expr.Alike ρ))) :
    Together ρ
      (do
        let columns ← ((List.range cols).mapM f : Build _)
        ofElements kind rows cols columns.flatten : Attempt AlgebraError (ExprMatrix α))
      (do
        let columns ← ((List.range cols).mapM f' : Build _)
        ofElements kind rows cols columns.flatten : Attempt AlgebraError (ExprMatrix α))
      (Alike ρ) := by
  have hcolumns : InStep ρ ((List.range cols).mapM f) ((List.range cols).mapM f')
      (List.Forall₂ (List.Forall₂ (Expr.Alike ρ))) := .mapM_self h
  exact (Together.lift hcolumns).bind fun _ _ hes =>
    .check (ofElements_alike kind rows cols (List.rel_flatten hes))

theorem together_forwardDerivative (hρ : BiUnique ρ) (hexpr : expr.Alike ρ expr')
    (harg : arg.Alike ρ arg') (hseed : seed.Alike ρ seed') :
    Together ρ (expr.forwardDerivative arg seed) (expr'.forwardDerivative arg' seed')
      (Alike ρ) := by
  rw [forwardDerivative, forwardDerivative]
  simp only [mapM_lift]
  rw [hexpr.kind, harg.kind, hseed.kind, hexpr.numel_eq, hseed.cols_eq]
  refine .check_bind_self fun kind => ?_
  refine .ite (by rw [hseed.rows_eq, harg.numel_eq]) (.throw_bind _ _) ?_
  refine (Together.check (symbolIds_alike harg)).bind fun symbols symbols' hsymbols => ?_
  refine together_columns kind _ _ fun j => ?_
  exact inStep_tangents hρ (tablesAlike_directionOf hρ hsymbols (hseed.grid.columnCells j))
    (evaluationOrder_alike hρ hexpr.elements) hexpr.elements

theorem together_jacobian (hρ : BiUnique ρ) (hexpr : expr.Alike ρ expr')
    (harg : arg.Alike ρ arg') :
    Together ρ (expr.jacobian arg) (expr'.jacobian arg') (Alike ρ) := by
  rw [jacobian, jacobian, harg.numel_eq]
  exact (Together.lift (inStep_identity .dm _)).bind fun unit unit' hunit =>
    together_forwardDerivative hρ hexpr harg hunit

theorem together_reverseDerivative (hρ : BiUnique ρ) (hexpr : expr.Alike ρ expr')
    (harg : arg.Alike ρ arg') (hseed : seed.Alike ρ seed') :
    Together ρ (expr.reverseDerivative arg seed) (expr'.reverseDerivative arg' seed')
      (Alike ρ) := by
  rw [reverseDerivative_eq, reverseDerivative_eq, hexpr.kind, harg.kind, hseed.kind,
    hseed.cols_eq]
  refine .check_bind_self fun kind => ?_
  refine .ite (by rw [hseed.rows_eq, hexpr.numel_eq]) (.throw_bind _ _) ?_
  refine (Together.check (symbolIds_alike harg)).bind fun symbols symbols' hsymbols => ?_
  rw [hsymbols.length_eq]
  exact together_columns kind _ _ fun j =>
    inStep_reverseColumn hρ hexpr.elements (hseed.grid.columnCells j) hsymbols

end ExprMatrix

end ExplicitOde
