import ExplicitOde.Proofs.Matrix.Assembly
import ExplicitOde.Proofs.Matrix.Success

/-!
# Operations on matrices, place by place

The elements of a matrix are stored in one list, column after column. Here the operations that look
for elements in it are written with the places they look at, as indices and slices that fail outside
the list (`Storage`). **On matrices that are stored whole they come to what the operations do**, so
no index is ever out of bounds: `getByPlace_eq`, `transposeByPlace_eq`, `mulByPlace_eq`,
`aboveByPlace_eq`, `identityByPlace_eq`, `derivativeByPlace_eq`.
-/

namespace ExplicitOde

open ExplicitOde.Expr

/-! ## Places -/

/-- Why an operation that goes by places fails. -/
inductive Fault where
  /-- There is no such place in the storage. -/
  | outside
  /-- The operation is refused. -/
  | refused (cause : AlgebraError)

namespace Fault

variable {β γ : Type}

/-- What may be refused. -/
def ofRefusal (c : Except AlgebraError β) : Except Fault β :=
  c.mapError .refused

/-- Checks one after the other come to the same if the second does. -/
theorem bind_ofRefusal {c : Except AlgebraError β} {f : β → Except Fault γ}
    {f' : β → Except AlgebraError γ} (h : ∀ b, c = .ok b → f b = ofRefusal (f' b)) :
    ofRefusal c >>= f = ofRefusal (c >>= f') := by
  cases c with
  | error e => rfl
  | ok b => exact h b rfl

/-- Computations that begin with a check come to the same if what follows it does. -/
theorem check_bind {c : Except AlgebraError β} {f : β → Attempt Fault γ}
    {f' : β → Attempt AlgebraError γ} (h : ∀ b, c = .ok b → f b = (f' b).adapt .refused) :
    (liftM (ofRefusal c) >>= f : Attempt Fault γ) =
      (liftM c >>= f' : Attempt AlgebraError γ).adapt .refused := by
  cases c with
  | error e => rfl
  | ok b => exact h b rfl

end Fault

namespace Storage

variable {β : Type} {cells : List β} {place : Nat} {b : β}

/-- What is stored at a place. -/
def read (cells : List β) (place : Nat) : Except Fault β :=
  match cells[place]? with
  | some b => .ok b
  | none => .error .outside

/-- What is stored from one place up to another. -/
def slice (cells : List β) (start stop : Nat) : Except Fault (List β) :=
  if start ≤ stop ∧ stop ≤ cells.length then .ok ((cells.drop start).take (stop - start))
  else .error .outside

/-- Something new is stored at a place. -/
def write (cells : List β) (place : Nat) (b : β) : Except Fault (List β) :=
  if place < cells.length then .ok (cells.set place b) else .error .outside

theorem read_eq_ok (h : cells[place]? = some b) : read cells place = .ok b := by
  rw [read, h]

theorem write_eq_ok (h : place < cells.length) : write cells place b = .ok (cells.set place b) :=
  if_pos h

variable {g : Grid β} {i j : Nat}

/-- Every position of a full grid has its place. -/
theorem read_of_get? (h : g.get? i j = some b) : read g.cells (i + j * g.rows) = .ok b :=
  read_eq_ok (Grid.get?_eq_some_iff.mp h).2.2

/-- The columns of a full grid are slices. -/
theorem slice_column (h : g.Full) (hj : j < g.cols) :
    slice g.cells (j * g.rows) ((j + 1) * g.rows) = .ok (g.columnCells j) := by
  have hstart : j * g.rows ≤ (j + 1) * g.rows := Nat.mul_le_mul_right _ (Nat.le_succ j)
  have hstop : (j + 1) * g.rows ≤ g.cells.length := by
    rw [h, Nat.mul_comm g.rows]
    exact Nat.mul_le_mul_right _ hj
  rw [slice, if_pos ⟨hstart, hstop⟩, Nat.succ_mul, Nat.add_sub_cancel_left]
  rfl

end Storage

open Storage

namespace ExprMatrix

variable {α : Type} {m : ExprMatrix α} {parts : List (ExprMatrix α)}

/-! ## Elements -/

/-- The element at a position, read at its place. -/
def getByPlace (m : ExprMatrix α) (row col : Nat) : Except Fault (Expr α) :=
  if m.rows ≤ row ∨ m.cols ≤ col then .error (.refused (.noElement row col m.shape))
  else read m.elements (row + col * m.rows)

/-- A matrix of one element. -/
def elementByPlace (m : ExprMatrix α) (row col : Nat) : Except Fault (ExprMatrix α) := do
  return column m.kind [← m.getByPlace row col]

/-- A whole matrix has an element at every position. -/
theorem exists_get (hm : m.grid.Full) {row col : Nat} (hrow : row < m.rows) (hcol : col < m.cols) :
    ∃ e, m.get row col = .ok e ∧ m.grid.get? row col = some e := by
  obtain ⟨e, he⟩ := hm.exists_get? hrow hcol
  exact ⟨e, by rw [get, he], he⟩

theorem get_of_outside {row col : Nat} (h : ¬(row < m.rows ∧ col < m.cols)) :
    m.get row col = .error (.noElement row col m.shape) := by
  have hnone : m.grid.get? row col = none := if_neg h
  rw [get, hnone]

theorem getByPlace_eq (hm : m.grid.Full) (row col : Nat) :
    m.getByPlace row col = Fault.ofRefusal (m.get row col) := by
  rw [getByPlace]
  by_cases h : row < m.rows ∧ col < m.cols
  · obtain ⟨e, he, hplace⟩ := exists_get hm h.1 h.2
    rw [if_neg (by omega), he]
    exact read_of_get? hplace
  · rw [if_pos (by omega), get_of_outside h]
    rfl

theorem elementByPlace_eq (hm : m.grid.Full) (row col : Nat) :
    m.elementByPlace row col = Fault.ofRefusal (m.element row col) := by
  rw [elementByPlace, getByPlace_eq hm, element]
  exact Fault.bind_ofRefusal fun _ _ => rfl

/-! ## Rows and columns exchanged -/

/-- The elements row by row, each read at its place. -/
def transposeByPlace (m : ExprMatrix α) : Except Fault (ExprMatrix α) := do
  let cells ← (Grid.positions m.cols m.rows).mapM fun (j, i) => read m.elements (i + j * m.rows)
  return ⟨m.kind, ⟨m.cols, m.rows, cells⟩⟩

theorem transposeByPlace_eq (hm : m.grid.Full) : m.transposeByPlace = .ok m.transpose := by
  have hcells : (Grid.positions m.cols m.rows).mapM
      (fun p => read m.elements (p.2 + p.1 * m.rows)) = .ok m.grid.transpose.cells := by
    refine mapM_eq_ok_iff.mpr (hm.transpose.forall₂_positions.imp fun p e he => ?_)
    obtain ⟨hi, hj, _⟩ := Grid.get?_eq_some_iff.mp he
    rw [hm.get?_transpose hi hj] at he
    exact read_of_get? he
  rw [transposeByPlace, hcells]
  rfl

/-! ## One above the other -/

/-- Every column is made of slices of the blocks. -/
def aboveByPlace (parts : List (ExprMatrix α)) : Except Fault (ExprMatrix α) := do
  let kind ← Fault.ofRefusal (combineKinds .above (parts.map ExprMatrix.kind))
  match blocks parts with
  | [] => return ⟨kind, ⟨0, 0, []⟩⟩
  | first :: others =>
    Fault.ofRefusal (checkShapes .above (fun g => g.cols == first.cols) first others)
    let all := first :: others
    let columns ← (List.range first.cols).mapM fun j =>
      all.mapM fun g => slice g.cells (j * g.rows) ((j + 1) * g.rows)
    return ⟨kind, ⟨(all.map Grid.rows).foldr (· + ·) 0, first.cols, columns.flatten.flatten⟩⟩

theorem slices_eq {gs : List (Grid (Expr α))} {cols : Nat} (h : ∀ g ∈ gs, g.Full ∧ g.cols = cols) :
    ((List.range cols).mapM fun j => gs.mapM fun g =>
      slice g.cells (j * g.rows) ((j + 1) * g.rows)) =
        .ok ((List.range cols).map fun j => gs.map fun g => g.columnCells j) := by
  rw [mapM_eq_ok_iff, List.forall₂_map_right_iff, List.forall₂_same]
  intro j hj
  rw [mapM_eq_ok_iff, List.forall₂_map_right_iff, List.forall₂_same]
  intro g hg
  obtain ⟨hfull, rfl⟩ := h g hg
  exact slice_column hfull (List.mem_range.mp hj)

theorem aboveCells_eq_flatten (cols : Nat) (gs : List (Grid (Expr α))) :
    Grid.aboveCells cols gs =
      ((List.range cols).map fun j => gs.map fun g => g.columnCells j).flatten.flatten := by
  rw [Grid.aboveCells, List.flatten_flatten, List.map_map, List.flatMap_def]
  rfl

theorem aboveByPlace_eq (hparts : ∀ p ∈ parts, p.grid.Full) :
    aboveByPlace parts = Fault.ofRefusal (above parts) := by
  have hfull := full_of_mem_blocks hparts
  rw [aboveByPlace, above]
  refine Fault.bind_ofRefusal fun kind _ => ?_
  cases hblocks : blocks parts with
  | nil => rfl
  | cons first others =>
      rw [hblocks] at hfull
      refine Fault.bind_ofRefusal fun _ hcheck => ?_
      have hcols : ∀ g ∈ first :: others, g.cols = first.cols :=
        List.forall_mem_cons.mpr ⟨rfl, by simpa using checkShapes_eq_ok_iff.mp hcheck⟩
      dsimp only
      rw [slices_eq fun g hg => ⟨hfull g hg, hcols g hg⟩, aboveCells_eq_flatten]
      rfl

/-- The elements on and below the diagonal, each read at its place. -/
def lowerTriangleByPlace (m : ExprMatrix α) : Except Fault (ExprMatrix α) := do
  aboveByPlace (← (lowerPositions m.rows).mapM fun (i, j) => m.elementByPlace i j)

theorem full_of_element {row col : Nat} {e : ExprMatrix α} (h : m.element row col = .ok e) :
    e.grid.Full := by
  obtain ⟨_, _, hcolumn⟩ := bind_eq_ok_iff.mp h
  obtain rfl := Except.ok.inj hcolumn
  rfl

theorem lowerTriangleByPlace_eq (hm : m.grid.Full) :
    m.lowerTriangleByPlace = Fault.ofRefusal m.lowerTriangle := by
  have helements : (lowerPositions m.rows).mapM (fun p => m.elementByPlace p.1 p.2) =
      Fault.ofRefusal ((lowerPositions m.rows).mapM fun p => m.element p.1 p.2) :=
    mapM_mapError fun p _ => elementByPlace_eq hm p.1 p.2
  rw [lowerTriangleByPlace, helements, lowerTriangle]
  refine Fault.bind_ofRefusal fun es hes => aboveByPlace_eq fun e he => ?_
  obtain ⟨p, _, hp⟩ := Grid.exists_of_mem_forall₂ (mapM_eq_ok_iff.mp hes) he
  exact full_of_element hp

/-! ## Products -/

section

variable [Scalar α] {a b seed expr arg : ExprMatrix α}

/-- The sum of the products of a row and a column, element by element. -/
def dotByPlace (a b : ExprMatrix α) (i j : Nat) : Attempt Fault (Expr α) := do
  (List.range a.cols).foldlM
    (fun sum l => do
      let x ← read a.elements (i + l * a.rows)
      let y ← read b.elements (l + j * b.rows)
      Expr.mkAdd sum (← Expr.mkMul x y))
    (← Expr.mkZero)

/-- The product of two matrices, made of elements that are read at their places. -/
def mulByPlace (a b : ExprMatrix α) : Attempt Fault (ExprMatrix α) := do
  let kind ← Fault.ofRefusal (combinePair .product a b)
  if a.cols = b.rows then
    let cells ← (Grid.positions a.rows b.cols).mapM fun (i, j) => dotByPlace a b i j
    return ⟨kind, ⟨a.rows, b.cols, cells⟩⟩
  else throw (.refused (.shapes .product a.shape b.shape))

theorem dotByPlace_eq (ha : a.grid.Full) (hb : b.grid.Full) (hfit : a.cols = b.rows) {i j : Nat}
    (hi : i < a.rows) (hj : j < b.cols) :
    dotByPlace a b i j = liftM (dot (a.grid.rowCells i) (b.grid.columnCells j)) := by
  have hrow := ha.forall₂_rowCells hi
  have hcolumn := hb.forall₂_columnCells hj
  rw [show b.grid.rows = a.grid.cols from hfit.symm] at hcolumn
  funext n
  refine congrFun (foldlM_lift ((Grid.forall₂_zip_right hrow hcolumn).imp ?_) _) _
  rintro l ⟨x, y⟩ ⟨hx, hy⟩ sum
  rw [show read a.elements (i + l * a.rows) = .ok x from read_of_get? hx,
    show read b.elements (l + j * b.rows) = .ok y from read_of_get? hy]
  rfl

theorem mulByPlace_eq (ha : a.grid.Full) (hb : b.grid.Full) :
    mulByPlace a b = (mul a b).adapt .refused := by
  rw [mulByPlace, mul]
  refine Fault.check_bind fun kind _ => ?_
  by_cases hfit : a.cols = b.rows
  · have hcells : (Grid.positions a.rows b.cols).mapM (fun p => dotByPlace a b p.1 p.2) =
        liftM (productCells a.grid b.grid) := by
      rw [productCells, ← mapM_lift]
      refine mapM_congr fun p hp => ?_
      obtain ⟨hi, hj⟩ := Grid.mem_positions.mp hp
      exact dotByPlace_eq ha hb hfit hi hj
    rw [if_pos hfit, if_pos hfit, hcells]
    rfl
  · rw [if_neg hfit, if_neg hfit]
    rfl

/-! ## Identity matrices -/

/-- A matrix of zeros with ones written to the places of the diagonal. -/
def identityByPlace (kind : Kind) (n : Nat) : Attempt Fault (ExprMatrix α) := do
  let zero ← Expr.mkZero
  let cells ← (List.range n).foldlM
    (fun cells i => do write cells (i + i * n) (← Expr.mkOne)) (List.replicate (n * n) zero)
  return ⟨kind, ⟨n, n, cells⟩⟩

/-- What is at a position when the ones of the columns before `k` are there; the first one has the
identity `next`. -/
def unitCell (zero : Expr α) (next k : Nat) (p : Nat × Nat) : Expr α :=
  if p.1 = p.2 ∧ p.2 < k then .const (next + p.2) Scalar.one else zero

/-- What an identity matrix has at a position, made at once. -/
def mkUnit (zero : Expr α) (p : Nat × Nat) : Build (Expr α) :=
  if p.1 = p.2 then mkOne else pure zero

theorem mkUnit_run (zero : Expr α) (next i j : Nat) :
    mkUnit zero (i, j) (if j < i then next + j + 1 else next + j) =
      (unitCell zero next (j + 1) (i, j), if j < i + 1 then next + j + 1 else next + j) := by
  rcases Nat.lt_trichotomy i j with hlt | rfl | hlt
  · have hbefore : ¬j < i := by omega
    have hafter : ¬j < i + 1 := by omega
    rw [if_neg hbefore, if_neg hafter, mkUnit, if_neg (Nat.ne_of_lt hlt), unitCell,
      if_neg fun h => Nat.ne_of_lt hlt h.1]
    rfl
  · have hdiagonal : (i, i).1 = (i, i).2 ∧ (i, i).2 < i + 1 := ⟨rfl, Nat.lt_succ_self i⟩
    rw [if_neg (Nat.lt_irrefl i), if_pos (Nat.lt_succ_self i), mkUnit, if_pos rfl, unitCell,
      if_pos hdiagonal]
    rfl
  · have hafter : j < i + 1 := by omega
    rw [if_pos hlt, if_pos hafter, mkUnit, if_neg (Nat.ne_of_gt hlt), unitCell,
      if_neg fun h => Nat.ne_of_gt hlt h.1]
    rfl

/-- One column of an identity matrix, down to a row. -/
theorem unitColumn_run (zero : Expr α) (next j rows : Nat) :
    (((List.range rows).map fun i => (i, j)).mapM (mkUnit zero)) (next + j) =
      (((List.range rows).map fun i => (i, j)).map (unitCell zero next (j + 1)),
        if j < rows then next + j + 1 else next + j) := by
  induction rows with
  | zero => rfl
  | succ i ih =>
      have hlast : [(i, j)].mapM (mkUnit zero) (if j < i then next + j + 1 else next + j) =
          ([unitCell zero next (j + 1) (i, j)], if j < i + 1 then next + j + 1 else next + j) := by
        rw [List.mapM_cons, build_bind_run (mkUnit_run zero next i j)]
        rfl
      rw [List.range_succ, List.map_append, List.map_append, List.mapM_append, build_bind_run ih]
      exact build_bind_run hlast

/-- The first columns of an identity matrix. -/
theorem unitColumns_run (zero : Expr α) (next : Nat) {n k : Nat} (hk : k ≤ n) :
    (Grid.positions n k).mapM (mkUnit zero) next =
      ((Grid.positions n k).map (unitCell zero next k), next + k) := by
  induction k with
  | zero => rfl
  | succ k ih =>
      have hbefore : (Grid.positions n k).map (unitCell zero next k) =
          (Grid.positions n k).map (unitCell zero next (k + 1)) := by
        refine List.map_congr_left fun p hp => ?_
        have hp := (Grid.mem_positions.mp hp).2
        simp only [unitCell, hp, Nat.lt_succ_of_lt hp]
      have hlast := unitColumn_run zero next k n
      rw [if_pos (Nat.lt_of_succ_le hk)] at hlast
      have hpositions : Grid.positions n (k + 1) =
          Grid.positions n k ++ (List.range n).map fun i => (i, k) := by
        rw [Grid.positions, List.range_succ, List.flatMap_append, List.flatMap_singleton]
        rfl
      rw [hpositions, List.mapM_append, build_bind_run (ih (Nat.le_of_succ_le hk)), hbefore,
        List.map_append]
      exact build_bind_run hlast

/-- A one is written to a place of the diagonal. -/
theorem set_unitCell (zero : Expr α) (next : Nat) {n k : Nat} (hk : k < n) :
    ((Grid.positions n n).map (unitCell zero next k)).set (k + k * n)
        (.const (next + k) Scalar.one) =
      (Grid.positions n n).map (unitCell zero next (k + 1)) := by
  refine List.ext_getElem? fun place => ?_
  rw [List.getElem?_set, List.getElem?_map, List.getElem?_map]
  by_cases hplace : k + k * n = place
  · subst hplace
    have hlt : k + k * n < ((Grid.positions n n).map (unitCell zero next k)).length := by
      rw [List.length_map, Grid.length_positions]
      exact Grid.place_lt hk hk
    rw [if_pos rfl, if_pos hlt, Grid.getElem?_positions hk hk]
    simp [unitCell]
  · rw [if_neg hplace]
    cases hp : (Grid.positions n n)[place]? with
    | none => rfl
    | some p =>
        -- the other positions of the diagonal are before this one or after it
        have hne : p ≠ (k, k) := by
          rintro rfl
          exact hplace (Grid.place_of_getElem?_positions hp).symm
        have hiff : p.1 = p.2 ∧ p.2 < k ↔ p.1 = p.2 ∧ p.2 < k + 1 := by
          obtain ⟨i, j⟩ := p
          have hne : ¬(i = k ∧ j = k) := fun h => hne (Prod.ext h.1 h.2)
          dsimp only
          omega
        simp only [Option.map_some, unitCell, hiff]

/-- The ones of the first columns, written one after the other. -/
theorem writes_run (zero : Expr α) (next : Nat) {n k : Nat} (hk : k ≤ n) :
    ((List.range k).foldlM (fun cells i => do write cells (i + i * n) (← mkOne))
        (List.replicate (n * n) zero) : Attempt Fault (List (Expr α))) next =
      (.ok ((Grid.positions n n).map (unitCell zero next k)), next + k) := by
  induction k with
  | zero =>
      have hzero : unitCell zero next 0 = fun _ => zero := by
        funext p
        simp [unitCell]
      rw [hzero, List.map_const', Grid.length_positions]
      rfl
  | succ k ih =>
      have hplace : k + k * n < ((Grid.positions n n).map (unitCell zero next k)).length := by
        rw [List.length_map, Grid.length_positions]
        exact Grid.place_lt hk hk
      have hlast : (do
          write ((Grid.positions n n).map (unitCell zero next k)) (k + k * n) (← mkOne) :
            Attempt Fault (List (Expr α))) (next + k) =
            (.ok ((Grid.positions n n).map (unitCell zero next (k + 1))), next + (k + 1)) := by
        rw [lift_bind_run, ← set_unitCell zero next hk, ← write_eq_ok hplace]
        rfl
      rw [List.range_succ, List.foldlM_append, bind_run (ih (Nat.le_of_succ_le hk)),
        List.foldlM_cons, bind_run hlast]
      rfl

theorem identityByPlace_eq (kind : Kind) (n : Nat) :
    (identityByPlace kind n : Attempt Fault (ExprMatrix α)) =
      liftM (identity kind n : Build _) := by
  funext next
  -- the zero is made first, and then the ones in their order
  have hidentity : (identity kind n : Build (ExprMatrix α)) next =
      (⟨kind, n, n, (Grid.positions n n).map (unitCell (.const next Scalar.zero) (next + 1) n)⟩,
        next + 1 + n) := by
    have hones := unitColumns_run (α := α) (.const next Scalar.zero) (next + 1) (Nat.le_refl n)
    rw [identity]
    exact (build_bind_run (x := mkZero) rfl).trans (build_bind_run hones)
  rw [lift_run, hidentity, identityByPlace, lift_bind_run]
  exact bind_run (writes_run (.const next Scalar.zero) (next + 1) (Nat.le_refl n))

/-! ## Derivatives -/

/-- How a derivative in the directions of a seed is made, column by column. -/
structure Mode (α : Type) where
  /-- The rows that a seed has. -/
  rows : Nat
  /-- The rows that a derivative with respect to some symbols has. -/
  height : List Nat → Nat
  /-- The column of the derivative for a column of the seed. -/
  derive : List Nat → List (Expr α) → Build (List (Expr α))
  length_derive : ∀ symbols direction,
    Always (derive symbols direction) fun es => es.length = height symbols

/-- Forward derivatives have a row for every element. -/
def forwardMode (expr arg : ExprMatrix α) : Mode α where
  rows := arg.numel
  height _ := expr.numel
  derive symbols direction :=
    tangents (evaluationOrder expr.elements) expr.elements (directionOf symbols direction)
  length_derive _ _ _ := length_mapM_build _ _ _

/-- Reverse derivatives have a row for every symbol. -/
def reverseMode (expr : ExprMatrix α) : Mode α where
  rows := expr.numel
  height symbols := symbols.length
  derive symbols weights := reverseColumn expr.elements weights symbols
  length_derive _ _ _ := length_mapM_build _ _ _

variable {mode : Mode α}

/-- The derivative in the directions that are the columns of `seed`. -/
def derivative (mode : Mode α) (expr arg seed : ExprMatrix α) :
    Attempt AlgebraError (ExprMatrix α) := do
  let kind ← combineKinds .directional [expr.kind, arg.kind, seed.kind]
  if seed.rows ≠ mode.rows then
    throw (.shapes .directional (mode.rows, 1) seed.shape)
  let symbols ← arg.symbolIds
  let columns ← ((List.range seed.cols).mapM fun j =>
    mode.derive symbols (seed.grid.columnCells j) : Build _)
  ofElements kind (mode.height symbols) seed.cols columns.flatten

/-- The derivative, its directions slices of the storage of `seed`. -/
def derivativeByPlace (mode : Mode α) (expr arg seed : ExprMatrix α) :
    Attempt Fault (ExprMatrix α) := do
  let kind ← Fault.ofRefusal (combineKinds .directional [expr.kind, arg.kind, seed.kind])
  if seed.rows ≠ mode.rows then
    throw (.refused (.shapes .directional (mode.rows, 1) seed.shape))
  let symbols ← Fault.ofRefusal arg.symbolIds
  let columns ← (List.range seed.cols).mapM fun j => do
    let direction ← slice seed.elements (j * seed.rows) ((j + 1) * seed.rows)
    (mode.derive symbols direction : Build _)
  Fault.ofRefusal (ofElements kind (mode.height symbols) seed.cols columns.flatten)

theorem forwardDerivative_eq (expr arg seed : ExprMatrix α) :
    expr.forwardDerivative arg seed = derivative (forwardMode expr arg) expr arg seed := by
  rw [forwardDerivative]
  simp only [mapM_lift]
  rfl

theorem reverseDerivative_eq_derivative (expr arg seed : ExprMatrix α) :
    expr.reverseDerivative arg seed = derivative (reverseMode expr) expr arg seed :=
  reverseDerivative_eq expr arg seed

omit [Scalar α] in
theorem derivativeByPlace_eq (hseed : seed.grid.Full) :
    derivativeByPlace mode expr arg seed = (derivative mode expr arg seed).adapt .refused := by
  rw [derivativeByPlace, derivative]
  refine Fault.check_bind fun kind _ => ?_
  by_cases hrows : seed.rows ≠ mode.rows
  · rw [if_pos hrows, if_pos hrows]
    rfl
  · rw [if_neg hrows, if_neg hrows]
    refine Fault.check_bind fun symbols _ => ?_
    have hcolumns : ((List.range seed.cols).mapM fun j => do
        let direction ← slice seed.elements (j * seed.rows) ((j + 1) * seed.rows)
        (mode.derive symbols direction : Build _) : Attempt Fault (List (List (Expr α)))) =
          liftM ((List.range seed.cols).mapM fun j =>
            mode.derive symbols (seed.grid.columnCells j)) := by
      rw [← mapM_lift]
      refine mapM_congr fun j hj => ?_
      rw [show slice seed.elements (j * seed.rows) ((j + 1) * seed.rows) =
        .ok (seed.grid.columnCells j) from slice_column hseed (List.mem_range.mp hj)]
      rfl
    rw [hcolumns]
    rfl

omit [Scalar α] in
/-- The elements of a derivative are as many as its shape says. -/
theorem length_columns (mode : Mode α) (seed : ExprMatrix α) (symbols : List Nat) :
    Always ((List.range seed.cols).mapM fun j => mode.derive symbols (seed.grid.columnCells j))
      fun columns => columns.flatten.length = mode.height symbols * seed.cols := by
  intro n
  have hcolumns : Always ((List.range seed.cols).mapM fun j =>
      mode.derive symbols (seed.grid.columnCells j))
      fun columns => ∀ es ∈ columns, es.length = mode.height symbols :=
    Always.mapM fun j _ => mode.length_derive symbols (seed.grid.columnCells j)
  have hlength := Grid.length_flatten (hcolumns n)
  rwa [length_mapM_build, List.length_range] at hlength

/-- A Jacobian matrix, its directions slices of an identity matrix that is written place by
place. -/
def jacobianByPlace (expr arg : ExprMatrix α) : Attempt Fault (ExprMatrix α) := do
  derivativeByPlace (forwardMode expr arg) expr arg (← identityByPlace .dm arg.numel)

theorem full_identity (kind : Kind) (n : Nat) :
    Always (identity kind n : Build (ExprMatrix α)) fun m => m.grid.Full :=
  (identity_proper kind (fun _ => True) n).imp fun _ h => h.full

theorem jacobianByPlace_eq (expr arg : ExprMatrix α) :
    jacobianByPlace expr arg = (jacobian expr arg).adapt .refused := by
  rw [jacobianByPlace, identityByPlace_eq, jacobian]
  funext n
  rw [lift_bind_run, derivativeByPlace_eq (full_identity .dm arg.numel n), adapt_eq, adapt_eq,
    lift_bind_run, forwardDerivative_eq]

end

end ExprMatrix

end ExplicitOde
