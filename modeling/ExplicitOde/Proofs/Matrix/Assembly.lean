import ExplicitOde.Matrix.Arithmetic
import ExplicitOde.Proofs.Function.Exact
import ExplicitOde.Proofs.Function.Verdict
import ExplicitOde.Proofs.Matrix.Blocks

/-!
# The laws of block assembly

**Side by side is one above the other, transposed**: matrices can be put side by side if their
transposes can be put one above the other, and then the results are transposes of each other.

**One above the other, every block keeps its cells**: the cells of a block are behind the rows of
the blocks before it, and every row of the result is a row of one block (`Stacked`).

**Groups make no difference**: matrices that are assembled in groups, and groups of groups, give
the matrix that they give at once. A group is passed over where all its matrices are.
-/

namespace ExplicitOde

namespace Grid

variable {β : Type} {gs before after : List (Grid β)} {g : Grid β} {rows cols : Nat}

/-- **Grids side by side are their transposes one above the other, transposed.** -/
theorem transpose_besideAll (h : ∀ g ∈ gs, g.Full ∧ g.rows = rows) :
    (besideAll rows gs).transpose = aboveAll rows (gs.map transpose) := by
  have htransposes : ∀ g ∈ gs.map transpose, g.Full ∧ g.cols = rows := by
    rw [List.forall_mem_map]
    exact fun g hg => ⟨(h g hg).1.transpose, (h g hg).2⟩
  have hsum : ((gs.map transpose).map Grid.rows).sum = (gs.map Grid.cols).sum := by
    rw [List.map_map]
    rfl
  refine ext_of_get? (full_besideAll h).transpose (full_aboveAll htransposes)
    (Prod.ext hsum.symm rfl) fun i j hi hj => ?_
  replace hi : i < (gs.map Grid.cols).sum := hi
  replace hj : j < rows := hj
  rw [(full_besideAll h).get?_transpose hi hj]
  -- the column is one of a block, which is a row of its transpose
  obtain ⟨before, g, after, k, rfl, hk, rfl⟩ := exists_summand hi
  obtain ⟨hfull, hrows⟩ := h g (by simp)
  rw [get?_besideAll h hj hk, ← hfull.get?_transpose hk (hrows ▸ hj)]
  rw [List.map_append, List.map_cons] at htransposes ⊢
  have hget := get?_aboveAll htransposes (i := k) (j := j) hk hj
  rw [List.map_map] at hget
  exact hget.symm

/-- The rows of a grid, each as the row of its cells. -/
def lines (g : Grid β) : List (List β) := (List.range g.rows).map g.rowCells

theorem getElem?_lines {i : Nat} (hi : i < g.rows) : g.lines[i]? = some (g.rowCells i) := by
  rw [lines, List.getElem?_map, List.getElem?_range hi]
  rfl

/-- Full grids of equally many columns are the same if they have the same rows. -/
theorem ext_of_lines {a b : Grid β} (ha : a.Full) (hb : b.Full) (hcols : a.cols = b.cols)
    (h : a.lines = b.lines) : a = b := by
  have hrows : a.rows = b.rows := by
    simpa only [lines, List.length_map, List.length_range] using congrArg List.length h
  refine ext_of_get? ha hb (Prod.ext hrows hcols) fun i j hi hj => ?_
  have hline : a.rowCells i = b.rowCells i := by
    have hat : a.lines[i]? = b.lines[i]? := by rw [h]
    rw [getElem?_lines hi, getElem?_lines (hrows ▸ hi)] at hat
    exact Option.some.inj hat
  rw [← ha.getElem?_rowCells hi hj, ← hb.getElem?_rowCells (hrows ▸ hi) (hcols ▸ hj), hline]

/-- Grids one above the other: their rows follow each other. -/
theorem lines_aboveAll (h : ∀ g ∈ gs, g.Full ∧ g.cols = cols) :
    (aboveAll cols gs).lines = gs.flatMap lines := by
  have hlengths : gs.map (fun g => g.lines.length) = gs.map Grid.rows :=
    List.map_congr_left fun g _ => by rw [lines, List.length_map, List.length_range]
  refine List.ext_getElem? fun k => ?_
  by_cases hk : k < (gs.map Grid.rows).sum
  · rw [getElem?_lines hk]
    obtain ⟨before, g, after, i, rfl, hi, rfl⟩ := exists_summand hk
    have hbefore : before.map (fun g => g.lines.length) = before.map Grid.rows :=
      List.map_congr_left fun g _ => by rw [lines, List.length_map, List.length_range]
    have hpiece : i < g.lines.length := by rwa [lines, List.length_map, List.length_range]
    rw [← hbefore, getElem?_flatMap_piece hpiece, getElem?_lines hi, hbefore]
    -- the row has the cells of the row of the block
    obtain ⟨_, hcols⟩ := h g (by simp)
    refine congrArg some ?_
    rw [rowCells, rowCells, hcols]
    refine List.filterMap_congr fun j hj => ?_
    exact get?_aboveAll h hi (List.mem_range.mp hj)
  · have hleft : (aboveAll cols gs).lines.length ≤ k := by
      rw [lines, List.length_map, List.length_range]
      exact Nat.le_of_not_lt hk
    have hright : (gs.flatMap lines).length ≤ k := by
      rw [List.length_flatMap, hlengths]
      exact Nat.le_of_not_lt hk
    rw [List.getElem?_eq_none hleft, List.getElem?_eq_none hright]

theorem Full.transpose_transpose {g : Grid β} (h : g.Full) : g.transpose.transpose = g := by
  refine ext_of_get? h.transpose.transpose h rfl fun i j hi hj => ?_
  rw [h.transpose.get?_transpose hi hj, h.get?_transpose hj hi]

end Grid

namespace ExprMatrix

variable {α : Type} {parts : List (ExprMatrix α)} {m : ExprMatrix α} {kind : Kind}
  {kinds : List Kind} {operation : Operation} {gs : List (Grid (Expr α))}
  {f : Grid (Expr α) → Nat} {n : Nat}

/-! ## Side by side and one above the other -/

theorem full_of_mem_blocks (hparts : ∀ p ∈ parts, p.grid.Full) : ∀ g ∈ blocks parts, g.Full := by
  intro g hg
  obtain ⟨⟨p, hp, rfl⟩, _⟩ := mem_blocks.mp hg
  exact hparts p hp

theorem full_of_beside (hparts : ∀ p ∈ parts, p.grid.Full) (h : beside parts = .ok m) :
    m.grid.Full := by
  obtain ⟨_, rows, heven, hm⟩ := beside_eq_ok_iff.mp h
  rw [hm]
  exact Grid.full_besideAll fun g hg => ⟨full_of_mem_blocks hparts g hg, heven.all g hg⟩

theorem full_of_above (hparts : ∀ p ∈ parts, p.grid.Full) (h : above parts = .ok m) :
    m.grid.Full := by
  obtain ⟨_, cols, heven, hm⟩ := above_eq_ok_iff.mp h
  rw [hm]
  exact Grid.full_aboveAll fun g hg => ⟨full_of_mem_blocks hparts g hg, heven.all g hg⟩

theorem blocks_transpose (parts : List (ExprMatrix α)) :
    blocks (parts.map transpose) = (blocks parts).map Grid.transpose := by
  have hnothing : ∀ g : Grid (Expr α), (!g.transpose.isNothing) = !g.isNothing := by
    intro g
    rw [Grid.isNothing, Grid.isNothing, Bool.and_comm]
    rfl
  have hgrids : (parts.map transpose).map grid = (parts.map grid).map Grid.transpose := by
    rw [List.map_map, List.map_map]
    rfl
  rw [blocks, blocks, hgrids, List.filter_map]
  exact congrArg _ (List.filter_congr fun g _ => hnothing g)

theorem kinds_transpose (parts : List (ExprMatrix α)) :
    (parts.map transpose).map ExprMatrix.kind = parts.map ExprMatrix.kind := by
  rw [List.map_map]
  rfl

theorem even_transpose : Even Grid.cols n (gs.map Grid.transpose) ↔ Even Grid.rows n gs := by
  constructor
  · rintro ⟨hall, hzero⟩
    exact ⟨List.forall_mem_map.mp hall, fun h => hzero (by rw [h]; rfl)⟩
  · rintro ⟨hall, hzero⟩
    exact ⟨List.forall_mem_map.mpr hall, fun h => hzero (List.map_eq_nil_iff.mp h)⟩

/-- What can be put side by side can be put one above the other, transposed. -/
theorem above_transpose (hparts : ∀ p ∈ parts, p.grid.Full) (h : beside parts = .ok m) :
    above (parts.map transpose) = .ok m.transpose := by
  obtain ⟨hkind, rows, heven, hm⟩ := beside_eq_ok_iff.mp h
  rw [above_eq_ok_iff, kinds_transpose, blocks_transpose]
  refine ⟨hkind, rows, even_transpose.mpr heven, ?_⟩
  rw [← Grid.transpose_besideAll fun g hg => ⟨full_of_mem_blocks hparts g hg, heven.all g hg⟩, ← hm]
  rfl

theorem beside_of_above_transpose (hparts : ∀ p ∈ parts, p.grid.Full)
    (h : above (parts.map transpose) = .ok m) : beside parts = .ok m.transpose := by
  rw [above_eq_ok_iff, kinds_transpose, blocks_transpose] at h
  obtain ⟨hkind, rows, heven, hm⟩ := h
  have hblocks : ∀ g ∈ blocks parts, g.Full ∧ g.rows = rows := fun g hg =>
    ⟨full_of_mem_blocks hparts g hg, (even_transpose.mp heven).all g hg⟩
  refine beside_eq_ok_iff.mpr ⟨hkind, rows, even_transpose.mp heven, ?_⟩
  rw [← (Grid.full_besideAll hblocks).transpose_transpose, Grid.transpose_besideAll hblocks, ← hm]
  rfl

theorem transpose_transpose (hm : m.grid.Full) : m.transpose.transpose = m := by
  rw [transpose, transpose, hm.transpose_transpose]

/-! ## The place of a block -/

/-- The grid has the rows of these blocks, one block after the other. -/
structure Stacked (gs : List (Grid (Expr α))) (whole : Grid (Expr α)) : Prop where
  rows : whole.rows = (gs.map Grid.rows).sum
  cols : ∀ g ∈ gs, g.cols = whole.cols
  full : whole.Full
  /-- The cells of a block are behind the rows of the blocks before it. -/
  cell : ∀ t g, gs[t]? = some g → ∀ i j, i < g.rows → j < g.cols →
    ∃ e, g.get? i j = some e ∧ whole.get? (((gs.take t).map Grid.rows).sum + i) j = some e
  /-- Every row is a row of one block. -/
  row : ∀ k < whole.rows, ∃! p : Nat × Nat, ∃ g, gs[p.1]? = some g ∧ p.2 < g.rows ∧
    k = ((gs.take p.1).map Grid.rows).sum + p.2

/-- The rows before a place are fewer than those before and at it. -/
theorem sum_take_succ {t : Nat} {g : Grid (Expr α)} (h : gs[t]? = some g) :
    ((gs.take (t + 1)).map Grid.rows).sum = ((gs.take t).map Grid.rows).sum + g.rows := by
  rw [List.take_add_one, h, Option.toList_some, List.map_append, List.sum_append, List.map_cons,
    List.map_nil, List.sum_singleton]

theorem sum_take_mono {s t : Nat} (h : s ≤ t) :
    ((gs.take s).map Grid.rows).sum ≤ ((gs.take t).map Grid.rows).sum := by
  obtain ⟨d, rfl⟩ := Nat.exists_eq_add_of_le h
  rw [List.take_add, List.map_append, List.sum_append]
  exact Nat.le_add_right _ _

/-- A row belongs to no block behind its own. -/
theorem place_unique {s t i k : Nat} {g : Grid (Expr α)} (hg : gs[s]? = some g) (hi : i < g.rows)
    (h : ((gs.take s).map Grid.rows).sum + i = ((gs.take t).map Grid.rows).sum + k) : t ≤ s := by
  by_contra hlt
  have hmono : ((gs.take (s + 1)).map Grid.rows).sum ≤ ((gs.take t).map Grid.rows).sum :=
    sum_take_mono (Nat.lt_of_not_le hlt)
  rw [sum_take_succ hg] at hmono
  omega

/-- **Matrices one above the other: every block keeps its cells, and there are no others.** -/
theorem stacked_of_above (hparts : ∀ p ∈ parts, p.grid.Full) (h : above parts = .ok m) :
    Stacked (blocks parts) m.grid := by
  obtain ⟨_, cols, heven, hm⟩ := above_eq_ok_iff.mp h
  have hblocks : ∀ g ∈ blocks parts, g.Full ∧ g.cols = cols := fun g hg =>
    ⟨full_of_mem_blocks hparts g hg, heven.all g hg⟩
  rw [hm]
  refine ⟨rfl, heven.all, Grid.full_aboveAll hblocks, fun t g hg i j hi hj => ?_, fun k hk => ?_⟩
  · obtain ⟨ht, hget⟩ := List.getElem?_eq_some_iff.mp hg
    have hsplit : blocks parts = (blocks parts).take t ++ g :: (blocks parts).drop (t + 1) := by
      rw [← hget, ← List.drop_eq_getElem_cons ht, List.take_append_drop]
    obtain ⟨hfull, hcols⟩ := hblocks g (List.mem_of_getElem? hg)
    obtain ⟨e, he⟩ := hfull.exists_get? hi hj
    rw [hsplit] at hblocks
    refine ⟨e, he, ?_⟩
    rw [← he, ← Grid.get?_aboveAll hblocks hi (hcols ▸ hj), ← hsplit]
  · obtain ⟨before, g, after, i, hsplit, hi, rfl⟩ := Grid.exists_summand hk
    have hg : (blocks parts)[before.length]? = some g := by simp [hsplit]
    have htake : (blocks parts).take before.length = before := by simp [hsplit]
    refine ⟨(before.length, i), ⟨g, hg, hi, by rw [htake]⟩, ?_⟩
    rintro ⟨t, k⟩ ⟨g', hg', hk', hplace⟩
    rw [← htake] at hplace
    obtain rfl : t = before.length :=
      Nat.le_antisymm (place_unique hg hi hplace) (place_unique hg' hk' hplace.symm)
    exact Prod.ext rfl (Nat.add_left_cancel hplace).symm

/-! ## Groups -/

theorem blocks_append (parts parts' : List (ExprMatrix α)) :
    blocks (parts ++ parts') = blocks parts ++ blocks parts' := by
  rw [blocks, List.map_append, List.filter_append]
  rfl

theorem blocks_singleton (m : ExprMatrix α) :
    blocks [m] = if m.grid.isNothing then [] else [m.grid] := by
  cases hnothing : m.grid.isNothing <;> simp [blocks, hnothing]

/-- A matrix by itself is what it is. -/
theorem above_singleton (hm : m.grid.Full) : above [m] = .ok m := by
  refine above_eq_ok_iff.mpr ⟨Kind.common_singleton m.kind, ?_⟩
  rw [blocks_singleton]
  cases hnothing : m.grid.isNothing with
  | true =>
      obtain ⟨hrows, hcols⟩ := isNothing_iff.mp hnothing
      refine ⟨0, ⟨List.forall_mem_nil _, fun _ => rfl⟩, ?_⟩
      exact Grid.ext_of_lines hm rfl hcols (by rw [Grid.lines, hrows]; rfl)
  | false =>
      have hall : ∀ g ∈ [m.grid], g.Full ∧ g.cols = m.grid.cols :=
        List.forall_mem_singleton.mpr ⟨hm, rfl⟩
      refine ⟨m.grid.cols, even_cons_iff.mpr ⟨rfl, List.forall_mem_nil _⟩, ?_⟩
      refine Grid.ext_of_lines hm (Grid.full_aboveAll hall) rfl ?_
      exact ((Grid.lines_aboveAll hall).trans (List.flatMap_singleton _ _)).symm

theorem beside_singleton (hm : m.grid.Full) : beside [m] = .ok m := by
  have h := above_singleton (m := m.transpose) hm.transpose
  have hparts : ∀ p ∈ [m], p.grid.Full := List.forall_mem_singleton.mpr hm
  rw [beside_of_above_transpose hparts h, transpose_transpose hm]

variable {groups : List (List (ExprMatrix α))} {wholes : List (ExprMatrix α)}

/-- A whole is passed over where all its parts are. -/
theorem isNothing_of_above (h : above parts = .ok m) :
    m.grid.isNothing = true ↔ blocks parts = [] := by
  obtain ⟨_, cols, heven, hm⟩ := above_eq_ok_iff.mp h
  rw [isNothing_iff, hm]
  constructor
  · rintro ⟨hrows, hcols⟩
    rw [List.eq_nil_iff_forall_not_mem]
    intro g hg
    -- a block with no rows and no columns is none
    have hzero : g.rows = 0 := List.sum_eq_zero_iff.mp hrows _ (List.mem_map_of_mem hg)
    have hsome := (mem_blocks.mp hg).2
    rw [isNothing_iff.mpr ⟨hzero, (heven.all g hg).trans hcols⟩] at hsome
    exact Bool.noConfusion hsome
  · intro hblocks
    rw [hblocks]
    exact ⟨rfl, heven.zero hblocks⟩

/-- A whole has the columns of its blocks. -/
theorem mem_cols_whole (h : above parts = .ok m) :
    n ∈ (blocks [m]).map Grid.cols ↔ n ∈ (blocks parts).map Grid.cols := by
  have hnothing := isNothing_of_above h
  obtain ⟨_, cols, heven, hm⟩ := above_eq_ok_iff.mp h
  rw [blocks_singleton]
  by_cases hblocks : blocks parts = []
  · rw [if_pos (hnothing.mpr hblocks), hblocks]
  · rw [if_neg fun h => hblocks (hnothing.mp h), List.map_singleton, List.mem_singleton, hm,
      List.mem_map]
    constructor
    · rintro rfl
      obtain ⟨g, hg⟩ := List.exists_mem_of_ne_nil _ hblocks
      exact ⟨g, hg, heven.all g hg⟩
    · rintro ⟨g, hg, rfl⟩
      exact heven.all g hg

/-- A whole has the rows of its blocks. -/
theorem lines_whole (hparts : ∀ p ∈ parts, p.grid.Full) (h : above parts = .ok m) :
    (blocks [m]).flatMap Grid.lines = (blocks parts).flatMap Grid.lines := by
  have hnothing := isNothing_of_above h
  obtain ⟨_, cols, heven, hm⟩ := above_eq_ok_iff.mp h
  rw [blocks_singleton]
  by_cases hblocks : blocks parts = []
  · rw [if_pos (hnothing.mpr hblocks), hblocks]
  · rw [if_neg fun h => hblocks (hnothing.mp h), List.flatMap_singleton, hm]
    exact Grid.lines_aboveAll fun g hg => ⟨full_of_mem_blocks hparts g hg, heven.all g hg⟩

/-- A measure of all of some grids depends on the measures that there are. -/
theorem even_congr {gs' : List (Grid (Expr α))} (h : ∀ k, k ∈ gs.map f ↔ k ∈ gs'.map f) :
    Even f n gs ↔ Even f n gs' := by
  have hiff : ∀ gs : List (Grid (Expr α)),
      Even f n gs ↔ (∀ k ∈ gs.map f, k = n) ∧ ((∀ k, k ∉ gs.map f) → n = 0) := by
    intro gs
    rw [List.forall_mem_map, ← List.eq_nil_iff_forall_not_mem, List.map_eq_nil_iff]
    exact ⟨fun h => ⟨h.all, h.zero⟩, fun h => ⟨h.1, h.2⟩⟩
  rw [hiff, hiff]
  simp only [h]

theorem full_flatten (hgroups : ∀ parts ∈ groups, ∀ p ∈ parts, p.grid.Full) :
    ∀ p ∈ groups.flatten, p.grid.Full := by
  intro p hp
  obtain ⟨parts, hparts, hp⟩ := List.mem_flatten.mp hp
  exact hgroups parts hparts p hp

/-- The wholes of full parts are full, if this is so for each of them. -/
theorem full_wholes {join : List (ExprMatrix α) → Except AlgebraError (ExprMatrix α)}
    (hjoin : ∀ {parts : List (ExprMatrix α)} {m : ExprMatrix α},
      (∀ p ∈ parts, p.grid.Full) → join parts = .ok m → m.grid.Full)
    (hgroups : ∀ parts ∈ groups, ∀ p ∈ parts, p.grid.Full)
    (h : List.Forall₂ (fun parts whole => join parts = .ok whole) groups wholes) :
    ∀ w ∈ wholes, w.grid.Full := by
  intro w hw
  obtain ⟨parts, hparts, hone⟩ := Grid.exists_of_mem_forall₂ h hw
  exact hjoin (hgroups parts hparts) hone

/-- Wholes have the columns of all blocks. -/
theorem mem_cols_wholes
    (h : List.Forall₂ (fun parts whole => above parts = .ok whole) groups wholes) (k : Nat) :
    k ∈ (blocks wholes).map Grid.cols ↔ k ∈ (blocks groups.flatten).map Grid.cols := by
  induction h with
  | nil => exact Iff.rfl
  | @cons parts whole groups wholes hone _ ih =>
      rw [List.flatten_cons, blocks_append, List.map_append, List.mem_append, ← ih,
        ← mem_cols_whole hone, ← List.mem_append, ← List.map_append, ← blocks_append,
        List.singleton_append]

/-- Wholes have the rows of all blocks, in their order. -/
theorem lines_wholes (hgroups : ∀ parts ∈ groups, ∀ p ∈ parts, p.grid.Full)
    (h : List.Forall₂ (fun parts whole => above parts = .ok whole) groups wholes) :
    (blocks wholes).flatMap Grid.lines = (blocks groups.flatten).flatMap Grid.lines := by
  induction h with
  | nil => rfl
  | @cons parts whole groups wholes hone _ ih =>
      obtain ⟨hparts, hgroups⟩ := List.forall_mem_cons.mp hgroups
      rw [List.flatten_cons, blocks_append, List.flatMap_append, ← ih hgroups,
        ← lines_whole hparts hone, ← List.flatMap_append, ← blocks_append, List.singleton_append]

/-- **The wholes of groups go together as all the parts do.** -/
theorem above_wholes (hgroups : ∀ parts ∈ groups, ∀ p ∈ parts, p.grid.Full)
    (h : List.Forall₂ (fun parts whole => above parts = .ok whole) groups wholes) :
    above wholes = .ok m ↔ above groups.flatten = .ok m := by
  have hkind : m.kind.Common (wholes.map ExprMatrix.kind) ↔
      m.kind.Common (groups.flatten.map ExprMatrix.kind) := by
    rw [List.map_flatten, Kind.common_flatten]
    refine List.forall₂_map_left_iff.mpr (List.forall₂_map_right_iff.mpr ?_)
    exact h.flip.imp fun _ _ habove => (above_eq_ok_iff.mp habove).1
  rw [above_eq_ok_iff, above_eq_ok_iff, hkind]
  refine and_congr_right fun _ => exists_congr fun cols => ?_
  have heven_iff : Even Grid.cols cols (blocks wholes) ↔
      Even Grid.cols cols (blocks groups.flatten) := even_congr (mem_cols_wholes h)
  rw [heven_iff]
  refine and_congr_right fun heven => ?_
  -- with the same rows and as many columns, both are the same grid
  have hleft : ∀ g ∈ blocks wholes, g.Full ∧ g.cols = cols := fun g hg =>
    ⟨full_of_mem_blocks (full_wholes full_of_above hgroups h) g hg, (heven_iff.mpr heven).all g hg⟩
  have hright : ∀ g ∈ blocks groups.flatten, g.Full ∧ g.cols = cols := fun g hg =>
    ⟨full_of_mem_blocks (full_flatten hgroups) g hg, heven.all g hg⟩
  have hsame : Grid.aboveAll cols (blocks wholes) = Grid.aboveAll cols (blocks groups.flatten) := by
    refine Grid.ext_of_lines (Grid.full_aboveAll hleft) (Grid.full_aboveAll hright) rfl ?_
    rw [Grid.lines_aboveAll hleft, Grid.lines_aboveAll hright, lines_wholes hgroups h]
  rw [hsame]

/-- Of what goes together, any part does. -/
theorem exists_above {more : List (ExprMatrix α)} (h : above more = .ok m) (hsub : parts ⊆ more) :
    ∃ whole, above parts = .ok whole := by
  obtain ⟨hkind, cols, heven, _⟩ := above_eq_ok_iff.mp h
  obtain ⟨kind, hparts⟩ : ∃ kind, Kind.Common kind (parts.map ExprMatrix.kind) := by
    rw [Kind.exists_common_iff]
    have hmix := Kind.exists_common_iff.mp ⟨_, hkind⟩
    exact fun hboth => hmix ⟨List.map_subset _ hsub hboth.1, List.map_subset _ hsub hboth.2⟩
  have hblocks : ∀ g ∈ blocks parts, g.cols = cols := by
    intro g hg
    obtain ⟨⟨p, hp, rfl⟩, hsome⟩ := mem_blocks.mp hg
    exact heven.all _ (mem_blocks.mpr ⟨⟨p, hsub hp, rfl⟩, hsome⟩)
  obtain ⟨cols', heven'⟩ := exists_even hblocks
  exact ⟨⟨kind, _⟩, above_eq_ok_iff.mpr ⟨hparts, cols', heven', rfl⟩⟩

/-- Putting matrices together in groups, and then the groups, gives what all of them give at
once. -/
def Flattens (join : List (ExprMatrix α) → Except AlgebraError (ExprMatrix α)) : Prop :=
  ∀ (groups : List (List (ExprMatrix α))), (∀ parts ∈ groups, ∀ p ∈ parts, p.grid.Full) →
    ∀ m, groups.mapM join >>= join = .ok m ↔ join groups.flatten = .ok m

theorem flattens_above : Flattens (above (α := α)) := by
  intro groups hgroups m
  rw [bind_eq_ok_iff]
  constructor
  · rintro ⟨wholes, hwholes, h⟩
    exact (above_wholes hgroups (mapM_eq_ok_iff.mp hwholes)).mp h
  · intro h
    obtain ⟨wholes, hwholes, _⟩ :
        ∃ wholes, groups.mapM above = .ok wholes ∧ ∀ w ∈ wholes, True := by
      refine exists_mapM_ok fun parts hparts => ?_
      obtain ⟨whole, hwhole⟩ := exists_above h fun p hp => List.mem_flatten_of_mem hparts hp
      exact ⟨whole, hwhole, trivial⟩
    exact ⟨wholes, hwholes, (above_wholes hgroups (mapM_eq_ok_iff.mp hwholes)).mpr h⟩

/-- Groups that are put side by side are put one above the other, transposed. -/
theorem forall₂_above_transpose (hgroups : ∀ parts ∈ groups, ∀ p ∈ parts, p.grid.Full)
    (h : List.Forall₂ (fun parts whole => beside parts = .ok whole) groups wholes) :
    List.Forall₂ (fun parts whole => above parts = .ok whole) (groups.map (List.map transpose))
      (wholes.map transpose) := by
  induction h with
  | nil => exact .nil
  | cons hone _ ih =>
      obtain ⟨hparts, hgroups⟩ := List.forall_mem_cons.mp hgroups
      exact .cons (above_transpose hparts hone) (ih hgroups)

theorem forall₂_beside_transpose (hgroups : ∀ parts ∈ groups, ∀ p ∈ parts, p.grid.Full)
    (h : List.Forall₂ (fun parts whole => above parts = .ok whole)
      (groups.map (List.map transpose)) wholes) :
    List.Forall₂ (fun parts whole => beside parts = .ok whole) groups (wholes.map transpose) := by
  induction groups generalizing wholes with
  | nil =>
      cases h
      exact .nil
  | cons parts groups ih =>
      obtain ⟨hparts, hgroups⟩ := List.forall_mem_cons.mp hgroups
      cases h with
      | cons hone hrest => exact .cons (beside_of_above_transpose hparts hone) (ih hgroups hrest)

theorem flattens_beside : Flattens (beside (α := α)) := by
  intro groups hgroups m
  have hflat := full_flatten hgroups
  have htransposes : ∀ parts ∈ groups.map (List.map transpose), ∀ p ∈ parts, p.grid.Full :=
    List.forall_mem_map.mpr fun parts hparts =>
      List.forall_mem_map.mpr fun p hp => (hgroups parts hparts p hp).transpose
  -- what is one above the other, transposed, goes together in groups
  have habove := flattens_above _ htransposes
  rw [← List.map_flatten] at habove
  rw [bind_eq_ok_iff]
  constructor
  · rintro ⟨wholes, hwholes, h⟩
    rw [mapM_eq_ok_iff] at hwholes
    have hfull := full_wholes full_of_beside hgroups hwholes
    have hrun := mapM_eq_ok_iff.mpr (forall₂_above_transpose hgroups hwholes)
    have hall := (habove _).mp (bind_eq_ok_iff.mpr ⟨_, hrun, above_transpose hfull h⟩)
    rw [beside_of_above_transpose hflat hall, transpose_transpose (full_of_beside hfull h)]
  · intro h
    obtain ⟨wholes, hrun, hwhole⟩ :=
      bind_eq_ok_iff.mp ((habove _).mpr (above_transpose hflat h))
    rw [mapM_eq_ok_iff] at hrun
    have hfull := full_wholes full_of_above htransposes hrun
    have htwice : (wholes.map transpose).map transpose = wholes := by
      rw [List.map_map]
      exact (List.map_congr_left fun w hw => transpose_transpose (hfull w hw)).trans (List.map_id _)
    refine ⟨wholes.map transpose, mapM_eq_ok_iff.mpr (forall₂_beside_transpose hgroups hrun), ?_⟩
    rw [beside_of_above_transpose (List.forall_mem_map.mpr fun w hw => (hfull w hw).transpose)
      (htwice.symm ▸ hwhole), transpose_transpose (full_of_beside hflat h)]

end ExprMatrix

/-! ## Groups of groups -/

/-- Matrices in groups, and groups of groups. -/
inductive Grouping (α : Type) where
  | single (m : ExprMatrix α)
  | group (parts : List (Grouping α))

namespace Grouping

variable {α : Type}

mutual

/-- The matrices, from left to right. -/
def leaves : Grouping α → List (ExprMatrix α)
  | single m => [m]
  | group parts => allLeaves parts

/-- The matrices of some groups. -/
def allLeaves : List (Grouping α) → List (ExprMatrix α)
  | [] => []
  | part :: parts => part.leaves ++ allLeaves parts

end

section

variable (join : List (ExprMatrix α) → Except AlgebraError (ExprMatrix α))

mutual

/-- Every group is put together, from the inside out. -/
def assemble : Grouping α → Except AlgebraError (ExprMatrix α)
  | single m => return m
  | group parts => do join (← assembleAll parts)

/-- Some groups, each put together. -/
def assembleAll : List (Grouping α) → Except AlgebraError (List (ExprMatrix α))
  | [] => return []
  | part :: parts => do return (← part.assemble) :: (← assembleAll parts)

end

end

theorem allLeaves_eq (parts : List (Grouping α)) :
    allLeaves parts = (parts.map leaves).flatten := by
  induction parts with
  | nil => rw [allLeaves, List.map_nil, List.flatten_nil]
  | cons part parts ih => rw [allLeaves, ih, List.map_cons, List.flatten_cons]

theorem assembleAll_eq (join : List (ExprMatrix α) → Except AlgebraError (ExprMatrix α))
    (parts : List (Grouping α)) : assembleAll join parts = parts.mapM (assemble join) := by
  induction parts with
  | nil => rw [assembleAll, List.mapM_nil]
  | cons part parts ih => rw [assembleAll, ih, List.mapM_cons]

/-- What holds of single matrices, and of a group if it holds of its parts, holds of every
grouping. -/
theorem ofParts {P : Grouping α → Prop} (hsingle : ∀ m, P (single m))
    (hgroup : ∀ parts, (∀ part ∈ parts, P part) → P (group parts)) (g : Grouping α) : P g :=
  @Grouping.rec α P (fun parts => ∀ part ∈ parts, P part) hsingle hgroup (List.forall_mem_nil _)
    (fun _ _ hpart hparts => List.forall_mem_cons.mpr ⟨hpart, hparts⟩) g

/-- **Groups of groups give what all matrices in them give at once.** -/
theorem assemble_iff {join : List (ExprMatrix α) → Except AlgebraError (ExprMatrix α)}
    (hjoin : ExprMatrix.Flattens join) (hone : ∀ m, m.grid.Full → join [m] = .ok m)
    (g : Grouping α) : (∀ p ∈ g.leaves, p.grid.Full) →
      ∀ m, g.assemble join = .ok m ↔ join g.leaves = .ok m := by
  induction g using ofParts with
  | hsingle m =>
      intro hfull m'
      rw [leaves] at hfull ⊢
      rw [assemble, hone m (hfull m (List.mem_singleton_self m))]
      exact Iff.rfl
  | hgroup parts ih =>
      intro hfull m
      rw [leaves, allLeaves_eq] at hfull ⊢
      have hgroups : ∀ part ∈ parts, ∀ p ∈ part.leaves, p.grid.Full := fun part hpart p hp =>
        hfull p (List.mem_flatten_of_mem (List.mem_map_of_mem hpart) hp)
      -- part by part the wholes are the same
      have hparts : ∀ wholes, parts.mapM (assemble join) = .ok wholes ↔
          (parts.map leaves).mapM join = .ok wholes := by
        intro wholes
        rw [mapM_eq_ok_iff, mapM_eq_ok_iff, List.forall₂_map_left_iff, List.forall₂_iff_zip,
          List.forall₂_iff_zip]
        refine and_congr_right fun _ => ⟨fun h part whole hmem => ?_, fun h part whole hmem => ?_⟩
        · have hpart := (List.of_mem_zip hmem).1
          exact (ih part hpart (hgroups part hpart) whole).mp (h hmem)
        · have hpart := (List.of_mem_zip hmem).1
          exact (ih part hpart (hgroups part hpart) whole).mpr (h hmem)
      rw [assemble, assembleAll_eq, ← hjoin _ (List.forall_mem_map.mpr hgroups), bind_eq_ok_iff,
        bind_eq_ok_iff]
      simp only [hparts]

end Grouping

namespace ExprMatrix

variable {α : Type}

/-- **The laws of block assembly.** Matrices go side by side if their transposes go one above the
other, and give the transposed matrix. One above the other they keep their rows, one after the
other. In groups, however deep, they give what they give at once. -/
theorem assembly_laws (parts : List (ExprMatrix α)) (hparts : ∀ p ∈ parts, p.grid.Full) :
    (((∃ m, beside parts = .ok m) ↔ ∃ m, above (parts.map transpose) = .ok m) ∧
      ∀ m m', beside parts = .ok m → above (parts.map transpose) = .ok m' → m.transpose = m') ∧
    (∀ m, above parts = .ok m → Stacked (blocks parts) m.grid) ∧
    ∀ g : Grouping α, g.leaves = parts → ∀ m,
      (g.assemble above = .ok m ↔ above parts = .ok m) ∧
      (g.assemble beside = .ok m ↔ beside parts = .ok m) := by
  refine ⟨⟨⟨?_, ?_⟩, fun m m' h h' => ?_⟩, fun m => stacked_of_above hparts, ?_⟩
  · rintro ⟨m, h⟩
    exact ⟨_, above_transpose hparts h⟩
  · rintro ⟨m, h⟩
    exact ⟨_, beside_of_above_transpose hparts h⟩
  · exact Except.ok.inj ((above_transpose hparts h).symm.trans h')
  · rintro g rfl m
    exact ⟨Grouping.assemble_iff flattens_above (fun _ => above_singleton) g hparts m,
      Grouping.assemble_iff flattens_beside (fun _ => beside_singleton) g hparts m⟩

/-! One row of symbols, a matrix of nothing, and two rows of symbols. -/

/-- One row. -/
def upperRow : ExprMatrix Float := ⟨.sx, ⟨1, 2, Expr.symbolsFrom 0 ["a", "b"]⟩⟩

/-- A numeric matrix without rows and columns. -/
def nothing : ExprMatrix Float := ⟨.dm, ⟨0, 0, []⟩⟩

/-- Two rows. -/
def lowerRows : ExprMatrix Float := ⟨.sx, ⟨2, 2, Expr.symbolsFrom 2 ["c", "d", "e", "f"]⟩⟩

/-- The three rows. -/
def threeRows : ExprMatrix Float :=
  ⟨.sx, ⟨3, 2, [.symbol 0 "a", .symbol 2 "c", .symbol 3 "d", .symbol 1 "b", .symbol 4 "e",
    .symbol 5 "f"]⟩⟩

/-- The rows in two groups, one after the other, and as columns. -/
theorem assembly_laws_threeRows :
    (Grouping.group [.single upperRow,
      .group [.single nothing, .single lowerRows]]).assemble above = .ok threeRows ∧
    Stacked [upperRow.grid, lowerRows.grid] threeRows.grid ∧
    ∃ m, beside [upperRow.transpose, nothing.transpose, lowerRows.transpose] = .ok m := by
  have hparts : ∀ p ∈ [upperRow, nothing, lowerRows], p.grid.Full := by
    simp [upperRow, nothing, lowerRows, Grid.Full, Expr.symbolsFrom]
  have habove : above [upperRow, nothing, lowerRows] = .ok threeRows := rfl
  obtain ⟨_, hstacked, hgroups⟩ := assembly_laws [upperRow, nothing, lowerRows] hparts
  have htransposes : ∀ p ∈ [upperRow, nothing, lowerRows].map transpose, p.grid.Full :=
    List.forall_mem_map.mpr fun p hp => (hparts p hp).transpose
  obtain ⟨⟨hbeside, _⟩, _⟩ := assembly_laws _ htransposes
  refine ⟨((hgroups _ rfl threeRows).1).mpr habove, hstacked threeRows habove, ?_⟩
  exact hbeside.mpr ⟨threeRows, habove⟩

end ExprMatrix

end ExplicitOde
