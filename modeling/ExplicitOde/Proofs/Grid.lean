import ExplicitOde.Grid
import Mathlib.Algebra.BigOperators.Ring.List
import Mathlib.Algebra.Ring.Nat
import Mathlib.Data.List.Forall2

/-!
# Grids by position

What the cells of a grid are at each position, for the ways in which grids are taken apart and put
together. A grid is *full* if it has as many cells as its shape says; reading a full grid fails
only outside its shape.
-/

namespace ExplicitOde

namespace Grid

variable {β γ : Type}

/-- A cell for every position. -/
def Full (g : Grid β) : Prop := g.cells.length = g.rows * g.cols

/-- The place of a position among the cells is a place. -/
theorem place_lt {rows cols i j : Nat} (hi : i < rows) (hj : j < cols) :
    i + j * rows < rows * cols := by
  calc i + j * rows < rows + j * rows := by omega
    _ = (j + 1) * rows := by rw [Nat.succ_mul, Nat.add_comm]
    _ ≤ cols * rows := Nat.mul_le_mul_right rows hj
    _ = rows * cols := Nat.mul_comm cols rows

/-- Every place among the cells of a full grid is that of a position. -/
theorem exists_place {g : Grid β} (h : g.Full) {n : Nat} (hn : n < g.cells.length) :
    ∃ i j, i < g.rows ∧ j < g.cols ∧ n = i + j * g.rows := by
  rw [h] at hn
  have hpos : 0 < g.rows := Nat.pos_of_mul_pos_right (Nat.lt_of_le_of_lt (Nat.zero_le n) hn)
  refine ⟨n % g.rows, n / g.rows, Nat.mod_lt n hpos, Nat.div_lt_of_lt_mul hn, ?_⟩
  rw [Nat.mul_comm, Nat.mod_add_div]

theorem get?_eq_some_iff {g : Grid β} {i j : Nat} {b : β} :
    g.get? i j = some b ↔ i < g.rows ∧ j < g.cols ∧ g.cells[i + j * g.rows]? = some b := by
  rw [get?]
  split
  · rename_i h
    simp [h]
  · rename_i h
    simp only [reduceCtorEq, false_iff]
    exact fun h' => h ⟨h'.1, h'.2.1⟩

/-- A full grid has a cell at every position. -/
theorem Full.exists_get? {g : Grid β} (h : g.Full) {i j : Nat} (hi : i < g.rows) (hj : j < g.cols) :
    ∃ b, g.get? i j = some b := by
  have hlt : i + j * g.rows < g.cells.length := by
    rw [h]
    exact place_lt hi hj
  exact ⟨g.cells[i + j * g.rows], get?_eq_some_iff.mpr ⟨hi, hj, List.getElem?_eq_getElem hlt⟩⟩

/-- A cell at a position is one of the cells. -/
theorem mem_of_get? {g : Grid β} {i j : Nat} {b : β} (h : g.get? i j = some b) : b ∈ g.cells :=
  List.mem_of_getElem? (get?_eq_some_iff.mp h).2.2

/-! ## Columns -/

/-- The cells of a column are those at its positions. -/
theorem getElem?_columnCells (g : Grid β) {i j : Nat} (hj : j < g.cols) :
    (g.columnCells j)[i]? = g.get? i j := by
  rw [columnCells, get?, List.getElem?_take, List.getElem?_drop, Nat.add_comm (j * g.rows)]
  simp [hj]

theorem mem_of_mem_columnCells {g : Grid β} {j : Nat} {b : β} (h : b ∈ g.columnCells j) :
    b ∈ g.cells :=
  List.mem_of_mem_drop (List.mem_of_mem_take h)

theorem Full.length_columnCells {g : Grid β} (h : g.Full) {j : Nat} (hj : j < g.cols) :
    (g.columnCells j).length = g.rows := by
  have hle : j * g.rows + g.rows ≤ g.cells.length := by
    calc j * g.rows + g.rows = (j + 1) * g.rows := (Nat.succ_mul j g.rows).symm
      _ ≤ g.cols * g.rows := Nat.mul_le_mul_right _ hj
      _ = g.cells.length := by rw [h, Nat.mul_comm]
  rw [columnCells, List.length_take, List.length_drop]
  omega

theorem Full.forall₂_columnCells {g : Grid β} (h : g.Full) {j : Nat} (hj : j < g.cols) :
    List.Forall₂ (fun i b => g.get? i j = some b) (List.range g.rows) (g.columnCells j) := by
  have hlength := h.length_columnCells hj
  refine List.forall₂_of_length_eq_of_get (by rw [List.length_range, hlength]) fun n hn hn' => ?_
  rw [← getElem?_columnCells g hj, List.get_eq_getElem, List.getElem_range]
  exact List.getElem?_eq_getElem hn'

/-- Columns of one length, one after the other: the place of a cell. -/
theorem getElem?_flatten {rows : Nat} : ∀ {columns : List (List β)},
    (∀ c ∈ columns, c.length = rows) → ∀ {i : Nat}, i < rows → ∀ (j : Nat),
    columns.flatten[i + j * rows]? = columns[j]?.bind fun column => column[i]? := by
  intro columns
  induction columns with
  | nil =>
      intro _ i _ j
      simp
  | cons c columns ih =>
      intro h i hi j
      have hc : c.length = rows := h c List.mem_cons_self
      rw [List.flatten_cons]
      cases j with
      | zero =>
          rw [Nat.zero_mul, Nat.add_zero, List.getElem?_append_left (by omega)]
          rfl
      | succ j =>
          have hle : c.length ≤ i + (j + 1) * rows := by
            rw [hc, Nat.succ_mul]
            omega
          have hrest : i + (j + 1) * rows - c.length = i + j * rows := by
            rw [hc, Nat.succ_mul]
            omega
          rw [List.getElem?_append_right hle, hrest, List.getElem?_cons_succ]
          exact ih (fun c' hc' => h c' (List.mem_cons_of_mem c hc')) hi j

theorem length_flatten {rows : Nat} {columns : List (List β)}
    (h : ∀ c ∈ columns, c.length = rows) : columns.flatten.length = rows * columns.length := by
  rw [List.length_flatten, List.map_congr_left h, List.map_const', List.sum_replicate_nat,
    Nat.mul_comm]

/-! ## Grids made column by column or cell by cell -/

/-- What two lists have to do with each other, place by place. -/
theorem forall₂_getElem? {P : β → γ → Prop} {bs : List β} {cs : List γ}
    (h : List.Forall₂ P bs cs) {n : Nat} {b : β} (hb : bs[n]? = some b) :
    ∃ c, cs[n]? = some c ∧ P b c := by
  obtain ⟨hn, rfl⟩ := List.getElem?_eq_some_iff.mp hb
  have hn' : n < cs.length := h.length_eq ▸ hn
  exact ⟨cs[n], List.getElem?_eq_getElem hn', h.get hn hn'⟩

theorem exists_of_mem_forall₂ {P : β → γ → Prop} {bs : List β} {cs : List γ}
    (h : List.Forall₂ P bs cs) {c : γ} (hc : c ∈ cs) : ∃ b ∈ bs, P b c := by
  obtain ⟨n, hn⟩ := List.getElem?_of_mem hc
  obtain ⟨b, hb, hp⟩ := forall₂_getElem? h.flip hn
  exact ⟨b, List.mem_of_getElem? hb, hp⟩

/-- What each element has to do with those of two lists it has to do with their pairs. -/
theorem forall₂_zip_right {P : β → γ → Prop} {δ : Type} {Q : β → δ → Prop} {bs : List β}
    {cs : List γ} {ds : List δ} (h : List.Forall₂ P bs cs) (h' : List.Forall₂ Q bs ds) :
    List.Forall₂ (fun b p => P b p.1 ∧ Q b p.2) bs (cs.zip ds) := by
  induction h generalizing ds with
  | nil =>
      cases h'
      exact .nil
  | cons hone _ ih =>
      cases h' with
      | cons hone' hrest => exact .cons ⟨hone, hone'⟩ (ih hrest)

section Columns

variable {rows cols : Nat} {columns : List (List β)} {P : Nat → List β → Prop}

/-- A grid that is made of its columns is full. -/
theorem full_of_columns (h : List.Forall₂ P (List.range cols) columns)
    (hlen : ∀ c ∈ columns, c.length = rows) :
    (⟨rows, cols, columns.flatten⟩ : Grid β).Full := by
  have hcols : columns.length = cols := by rw [← h.length_eq, List.length_range]
  rw [Full]
  exact (length_flatten hlen).trans (by rw [hcols])

/-- A cell of a grid that is made of its columns. -/
theorem get?_of_columns (h : List.Forall₂ P (List.range cols) columns)
    (hlen : ∀ c ∈ columns, c.length = rows) {i j : Nat} (hi : i < rows) (hj : j < cols) :
    ∃ column, P j column ∧ (⟨rows, cols, columns.flatten⟩ : Grid β).get? i j = column[i]? := by
  obtain ⟨c, hc, hp⟩ := forall₂_getElem? h (List.getElem?_range hj)
  refine ⟨c, hp, ?_⟩
  rw [get?, if_pos ⟨hi, hj⟩]
  exact (getElem?_flatten hlen hi j).trans (by rw [hc, Option.bind_some])

end Columns

theorem length_positions (rows cols : Nat) : (positions rows cols).length = rows * cols := by
  have hlen : ∀ c ∈ (List.range cols).map fun j => (List.range rows).map fun i => (i, j),
      c.length = rows := by
    simp
  rw [positions, List.flatMap_def, length_flatten hlen, List.length_map, List.length_range]

theorem mem_positions {rows cols : Nat} {p : Nat × Nat} :
    p ∈ positions rows cols ↔ p.1 < rows ∧ p.2 < cols := by
  simp only [positions, List.mem_flatMap, List.mem_map, List.mem_range]
  constructor
  · rintro ⟨j, hj, i, hi, rfl⟩
    exact ⟨hi, hj⟩
  · rintro ⟨hi, hj⟩
    exact ⟨p.2, hj, p.1, hi, rfl⟩

/-- The position at a place. -/
theorem getElem?_positions {rows cols i j : Nat} (hi : i < rows) (hj : j < cols) :
    (positions rows cols)[i + j * rows]? = some (i, j) := by
  have hlen : ∀ c ∈ (List.range cols).map fun j => (List.range rows).map fun i => (i, j),
      c.length = rows := by
    simp
  rw [positions, List.flatMap_def, getElem?_flatten hlen hi]
  simp [hi, hj]

/-- The place of a position. -/
theorem place_of_getElem?_positions {rows cols i j place : Nat}
    (h : (positions rows cols)[place]? = some (i, j)) :
    place = i + j * rows := by
  have hfull : (⟨rows, cols, positions rows cols⟩ : Grid (Nat × Nat)).Full :=
    length_positions rows cols
  obtain ⟨i', j', hi, hj, rfl⟩ := exists_place hfull (List.getElem?_eq_some_iff.mp h).1
  obtain ⟨rfl, rfl⟩ := Prod.mk.inj (Option.some.inj ((getElem?_positions hi hj).symm.trans h))
  rfl

/-- The cells of a full grid are those of its positions. -/
theorem Full.forall₂_positions {g : Grid β} (h : g.Full) :
    List.Forall₂ (fun p b => g.get? p.1 p.2 = some b) (positions g.rows g.cols) g.cells := by
  refine List.forall₂_of_length_eq_of_get ((length_positions _ _).trans h.symm) fun n hn hn' => ?_
  have hp : (positions g.rows g.cols)[n]? = some ((positions g.rows g.cols).get ⟨n, hn⟩) :=
    List.getElem?_eq_getElem hn
  obtain ⟨hi, hj⟩ := mem_positions.mp (List.mem_of_getElem? hp)
  refine get?_eq_some_iff.mpr ⟨hi, hj, ?_⟩
  rw [← place_of_getElem?_positions hp]
  exact List.getElem?_eq_getElem hn'

section Cells

variable {rows cols : Nat} {cells : List β} {P : Nat × Nat → β → Prop}

/-- A grid with a cell made for every position is full. -/
theorem full_of_cells (h : List.Forall₂ P (positions rows cols) cells) :
    (⟨rows, cols, cells⟩ : Grid β).Full := by
  rw [Full, ← h.length_eq, length_positions]

/-- A cell of a grid that was made for its position. -/
theorem get?_of_cells (h : List.Forall₂ P (positions rows cols) cells) {i j : Nat} (hi : i < rows)
    (hj : j < cols) : ∃ b, (⟨rows, cols, cells⟩ : Grid β).get? i j = some b ∧ P (i, j) b := by
  obtain ⟨b, hb, hp⟩ := forall₂_getElem? h (getElem?_positions hi hj)
  exact ⟨b, get?_eq_some_iff.mpr ⟨hi, hj, hb⟩, hp⟩

end Cells

/-! ## Rows -/

/-- A filter that drops nothing. -/
theorem forall₂_filterMap {f : β → Option γ} {bs : List β} (h : ∀ b ∈ bs, ∃ c, f b = some c) :
    List.Forall₂ (fun b c => f b = some c) bs (bs.filterMap f) := by
  induction bs with
  | nil => exact List.Forall₂.nil
  | cons b bs ih =>
      obtain ⟨c, hc⟩ := h b List.mem_cons_self
      rw [List.filterMap_cons_some hc]
      exact List.Forall₂.cons hc (ih fun b' hb' => h b' (List.mem_cons_of_mem b hb'))

theorem Full.forall₂_rowCells {g : Grid β} (h : g.Full) {i : Nat} (hi : i < g.rows) :
    List.Forall₂ (fun j b => g.get? i j = some b) (List.range g.cols) (g.rowCells i) :=
  forall₂_filterMap fun _ hj => h.exists_get? hi (List.mem_range.mp hj)

/-- The cells of a row are those at its positions. -/
theorem Full.getElem?_rowCells {g : Grid β} (h : g.Full) {i j : Nat} (hi : i < g.rows)
    (hj : j < g.cols) : (g.rowCells i)[j]? = g.get? i j := by
  obtain ⟨b, hb, hget⟩ := forall₂_getElem? (h.forall₂_rowCells hi) (List.getElem?_range hj)
  rw [hb, hget]

theorem Full.length_rowCells {g : Grid β} (h : g.Full) {i : Nat} (hi : i < g.rows) :
    (g.rowCells i).length = g.cols := by
  rw [← (h.forall₂_rowCells hi).length_eq, List.length_range]

/-- The rows are the columns of the transposed grid. -/
theorem Full.forall₂_transpose {g : Grid β} (h : g.Full) :
    List.Forall₂ (fun i c => c = g.rowCells i ∧ c.length = g.cols) (List.range g.rows)
      ((List.range g.rows).map g.rowCells) := by
  rw [List.forall₂_map_right_iff, List.forall₂_same]
  exact fun i hi => ⟨rfl, h.length_rowCells (List.mem_range.mp hi)⟩

theorem Full.transpose {g : Grid β} (h : g.Full) : g.transpose.Full := by
  have hrows := h.forall₂_transpose
  rw [Grid.transpose, List.flatMap_def]
  refine full_of_columns hrows fun c hc => ?_
  obtain ⟨i, _, hi⟩ := exists_of_mem_forall₂ hrows hc
  exact hi.2

/-- **The transposed grid has the rows as columns.** -/
theorem Full.get?_transpose {g : Grid β} (h : g.Full) {i j : Nat} (hi : i < g.cols)
    (hj : j < g.rows) : g.transpose.get? i j = g.get? j i := by
  have hrows := h.forall₂_transpose
  have hlen : ∀ c ∈ (List.range g.rows).map g.rowCells, c.length = g.cols := by
    intro c hc
    obtain ⟨k, _, hk⟩ := exists_of_mem_forall₂ hrows hc
    exact hk.2
  obtain ⟨c, hc, hget⟩ := get?_of_columns hrows hlen hi hj
  rw [Grid.transpose, List.flatMap_def, hget, hc.1, h.getElem?_rowCells hj hi]

/-! ## Blocks -/

/-- A piece of what is put together of pieces is behind those before it. -/
theorem getElem?_flatMap_piece {f : β → List γ} {before after : List β} {b : β} {k : Nat}
    (hk : k < (f b).length) :
    ((before ++ b :: after).flatMap f)[(before.map fun b => (f b).length).sum + k]? =
      (f b)[k]? := by
  rw [List.flatMap_append, List.flatMap_cons, ← List.length_flatMap,
    List.getElem?_append_right (Nat.le_add_right _ _), Nat.add_sub_cancel_left,
    List.getElem?_append_left hk]

section Blocks

variable {gs before after : List (Grid β)} {g : Grid β} {rows cols : Nat}

/-- Grids of one number of rows, all of them side by side. -/
def besideAll (rows : Nat) (gs : List (Grid β)) : Grid β :=
  ⟨rows, (gs.map Grid.cols).sum, besideCells gs⟩

/-- Grids of one number of columns, all of them one above the other. -/
def aboveAll (cols : Nat) (gs : List (Grid β)) : Grid β :=
  ⟨(gs.map Grid.rows).sum, cols, aboveCells cols gs⟩

theorem full_besideAll (h : ∀ g ∈ gs, g.Full ∧ g.rows = rows) : (besideAll rows gs).Full := by
  have hlengths : gs.map (fun g => g.cells.length) = gs.map fun g => rows * g.cols :=
    List.map_congr_left fun g hg => by rw [(h g hg).1, (h g hg).2]
  rw [Full, besideAll, besideCells, List.length_flatMap, hlengths, List.sum_map_mul_left]

/-- The columns of grids one above the other. -/
theorem forall₂_aboveAll (h : ∀ g ∈ gs, g.Full ∧ g.cols = cols) :
    List.Forall₂ (fun j c => c = gs.flatMap (fun g => g.columnCells j) ∧
        c.length = (gs.map Grid.rows).sum) (List.range cols)
      ((List.range cols).map fun j => gs.flatMap fun g => g.columnCells j) := by
  rw [List.forall₂_map_right_iff, List.forall₂_same]
  refine fun j hj => ⟨rfl, ?_⟩
  rw [List.length_flatMap]
  refine congrArg List.sum (List.map_congr_left fun g hg => ?_)
  exact (h g hg).1.length_columnCells ((h g hg).2 ▸ List.mem_range.mp hj)

theorem length_of_mem_aboveAll (h : ∀ g ∈ gs, g.Full ∧ g.cols = cols) :
    ∀ c ∈ (List.range cols).map fun j => gs.flatMap fun g => g.columnCells j,
      c.length = (gs.map Grid.rows).sum := by
  intro c hc
  obtain ⟨j, _, hj⟩ := exists_of_mem_forall₂ (forall₂_aboveAll h) hc
  exact hj.2

theorem full_aboveAll (h : ∀ g ∈ gs, g.Full ∧ g.cols = cols) : (aboveAll cols gs).Full := by
  rw [aboveAll, aboveCells, List.flatMap_def]
  exact full_of_columns (forall₂_aboveAll h) (length_of_mem_aboveAll h)

/-- Side by side, a grid has its columns behind those of the grids before it. -/
theorem get?_besideAll (h : ∀ b ∈ before ++ g :: after, b.Full ∧ b.rows = rows) {i j : Nat}
    (hi : i < rows) (hj : j < g.cols) :
    (besideAll rows (before ++ g :: after)).get? i ((before.map Grid.cols).sum + j) =
      g.get? i j := by
  obtain ⟨hfull, hrows⟩ := h g (by simp)
  have hlengths : (before.map fun g => g.cells.length).sum = rows * (before.map Grid.cols).sum := by
    have hbefore : ∀ b ∈ before, b.cells.length = rows * b.cols := fun b hb => by
      obtain ⟨hb, hrows⟩ := h b (List.mem_append_left _ hb)
      rw [hb, hrows]
    rw [List.map_congr_left hbefore, List.sum_map_mul_left]
  have hplace : i + ((before.map Grid.cols).sum + j) * rows =
      (before.map fun g => g.cells.length).sum + (i + j * g.rows) := by
    rw [hlengths, hrows, Nat.add_mul, Nat.mul_comm rows]
    omega
  have hcols : (before.map Grid.cols).sum + j < ((before ++ g :: after).map Grid.cols).sum := by
    rw [List.map_append, List.map_cons, List.sum_append, List.sum_cons]
    omega
  have hcell : i + j * g.rows < g.cells.length := by
    rw [hfull]
    exact place_lt (hrows ▸ hi) hj
  rw [get?, get?, if_pos ⟨hi, hcols⟩, if_pos ⟨hrows ▸ hi, hj⟩]
  exact (congrArg _ hplace).trans (getElem?_flatMap_piece hcell)

/-- One above the other, a grid has its rows behind those of the grids before it. -/
theorem get?_aboveAll (h : ∀ b ∈ before ++ g :: after, b.Full ∧ b.cols = cols) {i j : Nat}
    (hi : i < g.rows) (hj : j < cols) :
    (aboveAll cols (before ++ g :: after)).get? ((before.map Grid.rows).sum + i) j =
      g.get? i j := by
  obtain ⟨hfull, hcols⟩ := h g (by simp)
  have hbefore : before.map (fun g => (g.columnCells j).length) = before.map Grid.rows := by
    refine List.map_congr_left fun b hb => ?_
    obtain ⟨hb, hcols⟩ := h b (List.mem_append_left _ hb)
    exact hb.length_columnCells (hcols ▸ hj)
  have hrows : (before.map Grid.rows).sum + i < ((before ++ g :: after).map Grid.rows).sum := by
    rw [List.map_append, List.map_cons, List.sum_append, List.sum_cons]
    omega
  have hcolumns := forall₂_aboveAll h
  have hlengths := length_of_mem_aboveAll h
  obtain ⟨c, ⟨hc, _⟩, hget⟩ := get?_of_columns hcolumns hlengths hrows hj
  rw [aboveAll, aboveCells, List.flatMap_def, hget, hc, ← hbefore,
    getElem?_flatMap_piece (by rw [hfull.length_columnCells (hcols ▸ hj)]; exact hi),
    getElem?_columnCells g (hcols ▸ hj)]

/-- A place below a sum is in one of the summands. -/
theorem exists_summand {f : Grid β → Nat} {k : Nat} (hk : k < (gs.map f).sum) :
    ∃ before g after i, gs = before ++ g :: after ∧ i < f g ∧ k = (before.map f).sum + i := by
  induction gs generalizing k with
  | nil => exact absurd hk (Nat.not_lt_zero k)
  | cons g gs ih =>
      rw [List.map_cons, List.sum_cons] at hk
      by_cases hg : k < f g
      · exact ⟨[], g, gs, k, rfl, hg, (Nat.zero_add k).symm⟩
      · obtain ⟨before, g', after, i, rfl, hi, hplace⟩ := ih (k := k - f g) (by omega)
        refine ⟨g :: before, g', after, i, rfl, hi, ?_⟩
        rw [List.map_cons, List.sum_cons]
        omega

end Blocks

/-! ## Columns of grids -/

/-- The grid is no wider than a column: it has one cell for each row. -/
def Narrow (g : Grid β) : Prop := g.cells.length = g.rows

/-- A narrow full grid is a column, or has no cells. -/
theorem Full.cols_of_narrow {g : Grid β} (h : g.Full) (hn : g.Narrow) :
    g.rows = 0 ∨ g.cols = 1 := by
  rw [Narrow, h] at hn
  rcases Nat.eq_zero_or_pos g.rows with h0 | hpos
  · exact Or.inl h0
  · exact Or.inr (Nat.eq_of_mul_eq_mul_left hpos (hn.trans (Nat.mul_one _).symm))

/-- Narrow grids one above the other: their cells follow each other. -/
theorem aboveCells_of_narrow {cols : Nat} {gs : List (Grid β)}
    (h : ∀ g ∈ gs, g.Full ∧ g.Narrow ∧ g.cols = cols) :
    aboveCells cols gs = gs.flatMap cells := by
  by_cases hcols : cols = 1
  · subst hcols
    have hcolumn : ∀ g ∈ gs, g.columnCells 0 = g.cells := by
      intro g hg
      have hlen : g.cells.length = g.rows := (h g hg).2.1
      rw [columnCells, Nat.zero_mul, List.drop_zero, ← hlen, List.take_length]
    simp only [aboveCells, List.range_one, List.flatMap_cons, List.flatMap_nil, List.append_nil]
    exact List.flatMap_congr hcolumn
  · have hempty : ∀ g ∈ gs, g.cells = [] := by
      intro g hg
      obtain ⟨hfull, hnarrow, hg'⟩ := h g hg
      have hrows : g.rows = 0 := (hfull.cols_of_narrow hnarrow).resolve_right (hg' ▸ hcols)
      exact List.length_eq_zero_iff.mp (hnarrow.trans hrows)
    have hright : gs.flatMap cells = [] := List.flatMap_eq_nil_iff.mpr hempty
    rw [hright]
    refine List.flatMap_eq_nil_iff.mpr fun j _ => List.flatMap_eq_nil_iff.mpr fun g hg => ?_
    rw [columnCells, hempty g hg, List.drop_nil, List.take_nil]

end Grid

end ExplicitOde
