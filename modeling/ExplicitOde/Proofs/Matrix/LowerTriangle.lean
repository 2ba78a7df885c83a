import ExplicitOde.Proofs.Matrix.Assembly
import ExplicitOde.Proofs.Matrix.Success
import Mathlib.Data.Set.Function

/-!
# The lower triangle

The lower triangle of a square matrix is taken out element by element, column by column, and put
into one column. What reads that column knows only places in it. So **every position on or below
the diagonal has a place of its own, every place is that of a position, and there the element is the
one of the matrix**: `lowerTriangle_places`.

The place of a position is behind the columns before its own (`lowerPlace`). These get shorter by
one each, so their lengths are summed up by induction on their number.

A column is a lower triangle by what it has at the places (`Triangle`). That says nothing of
elements above the diagonal, and indeed they are not read.
-/

namespace ExplicitOde

variable {α : Type}

namespace ExprMatrix

/-! ## Places of positions -/

/-- The place of a position of the lower triangle: behind the columns before its own, and behind the
positions from the diagonal on in its own. -/
def lowerPlace (n i j : Nat) : Nat := j * n - j * (j - 1) / 2 + (i - j)

/-- The number of positions in the first columns. -/
theorem length_lowerColumns {n : Nat} : ∀ {j : Nat}, j ≤ n →
    2 * ((List.range j).flatMap fun j => (List.range (n - j)).map fun k => (j + k, j)).length +
      j * (j - 1) = 2 * (j * n) := by
  intro j
  induction j with
  | zero => simp
  | succ j ih =>
      intro hj
      have hrest := ih (by omega)
      have hsquare : (j + 1) * (j + 1 - 1) = j * (j - 1) + 2 * j := by
        cases j with
        | zero => rfl
        | succ j =>
            simp only [Nat.add_sub_cancel]
            ring
      have hproduct : (j + 1) * n = j * n + n := Nat.succ_mul j n
      rw [List.range_succ, List.flatMap_append, List.length_append, List.flatMap_singleton,
        List.length_map, List.length_range, hsquare, hproduct]
      omega

/-- A position is preceded by those of the columns before its own. -/
theorem getElem?_lowerPositions {n i j : Nat} (hj : j ≤ i) (hi : i < n) :
    (lowerPositions n)[lowerPlace n i j]? = some (i, j) := by
  have hrange : List.range n = List.range j ++ j :: List.range' (j + 1) (n - j - 1) := by
    obtain ⟨k, rfl⟩ : ∃ k, n = j + (k + 1) := ⟨n - j - 1, by omega⟩
    rw [List.range_eq_range', List.range_eq_range', ← List.range'_append_1, List.range'_succ]
    congr 3 <;> omega
  have hlen := length_lowerColumns (n := n) (j := j) (by omega)
  have hplace : lowerPlace n i j =
      ((List.range j).flatMap fun j => (List.range (n - j)).map fun k => (j + k, j)).length +
        (i - j) := by
    unfold lowerPlace
    omega
  rw [lowerPositions, hrange, List.flatMap_append, hplace,
    List.getElem?_append_right (Nat.le_add_right _ _), Nat.add_sub_cancel_left, List.flatMap_cons,
    List.getElem?_append_left (by simp; omega), List.getElem?_map, List.getElem?_range (by omega)]
  simp
  omega

theorem length_lowerPositions (n : Nat) : (lowerPositions n).length = n * (n + 1) / 2 := by
  have hlen := length_lowerColumns (Nat.le_refl n)
  have hsquare : n * (n + 1) + n * (n - 1) = 2 * (n * n) := by
    cases n with
    | zero => rfl
    | succ n =>
        simp only [Nat.add_sub_cancel]
        ring
  rw [lowerPositions]
  omega

theorem mem_lowerPositions {n : Nat} {p : Nat × Nat} :
    p ∈ lowerPositions n ↔ p.2 ≤ p.1 ∧ p.1 < n := by
  rw [lowerPositions, List.mem_flatMap]
  constructor
  · intro h
    obtain ⟨j, hj, hp⟩ := h
    obtain ⟨k, hk, rfl⟩ := List.mem_map.mp hp
    rw [List.mem_range] at hj hk
    exact ⟨Nat.le_add_right j k, by omega⟩
  · intro h
    obtain ⟨hle, hlt⟩ := h
    refine ⟨p.2, List.mem_range.mpr (by omega), List.mem_map.mpr ⟨p.1 - p.2, ?_, ?_⟩⟩
    · exact List.mem_range.mpr (by omega)
    · exact Prod.ext (Nat.add_sub_cancel' hle) rfl

/-- No position occurs twice. -/
theorem nodup_lowerPositions (n : Nat) : (lowerPositions n).Nodup := by
  rw [lowerPositions, List.nodup_flatMap]
  constructor
  · intro j _
    refine List.Nodup.map (fun k k' h => ?_) List.nodup_range
    exact Nat.add_left_cancel (Prod.mk.inj h).1
  · -- positions of different columns differ in their columns
    refine List.nodup_range.imp fun {j j'} hne => ?_
    intro p hp hp'
    obtain ⟨_, _, rfl⟩ := List.mem_map.mp hp
    obtain ⟨_, _, heq⟩ := List.mem_map.mp hp'
    exact hne (Prod.mk.inj heq).2.symm

/-- **Positions and places correspond one to one.** -/
theorem bijOn_lowerPlace (n : Nat) :
    Set.BijOn (fun p : Nat × Nat => lowerPlace n p.1 p.2) {p | p.2 ≤ p.1 ∧ p.1 < n}
      (Set.Iio (n * (n + 1) / 2)) := by
  refine ⟨?_, ?_, ?_⟩
  · intro p hp
    obtain ⟨hlt, _⟩ := List.getElem?_eq_some_iff.mp (getElem?_lowerPositions hp.1 hp.2)
    rwa [length_lowerPositions] at hlt
  · intro p hp q hq heq
    have hplaces : lowerPlace n p.1 p.2 = lowerPlace n q.1 q.2 := heq
    have hget := getElem?_lowerPositions hp.1 hp.2
    rw [hplaces, getElem?_lowerPositions hq.1 hq.2] at hget
    exact (Option.some.inj hget).symm
  · intro k hk
    rw [Set.mem_Iio, ← length_lowerPositions] at hk
    have hmem : (lowerPositions n)[k] ∈ lowerPositions n := List.getElem_mem hk
    obtain ⟨hle, hlt⟩ := mem_lowerPositions.mp hmem
    refine ⟨(lowerPositions n)[k], ⟨hle, hlt⟩, ?_⟩
    -- the same position is at both places
    refine ((List.getElem?_inj hk (nodup_lowerPositions n)).mp ?_).symm
    exact (List.getElem?_eq_getElem hk).trans (getElem?_lowerPositions hle hlt).symm

/-! ## Elements one by one -/

variable {m m' t t' : ExprMatrix α} {n : Nat} {kind : Kind}

/-- Elements at some positions, each as a matrix of its own. -/
theorem mapM_element_eq_ok_iff {ps : List (Nat × Nat)} {parts : List (ExprMatrix α)} :
    ps.mapM (fun p => m.element p.1 p.2) = .ok parts ↔
      ∃ es, List.Forall₂ (fun p e => m.get p.1 p.2 = .ok e) ps es ∧
        parts = es.map fun e => column m.kind [e] := by
  rw [mapM_eq_ok_iff]
  constructor
  · intro h
    induction h with
    | nil => exact ⟨[], .nil, rfl⟩
    | cons hpart _ ih =>
        obtain ⟨e, he, rfl⟩ := element_eq_ok_iff.mp hpart
        obtain ⟨es, hes, rfl⟩ := ih
        exact ⟨e :: es, .cons he hes, rfl⟩
  · rintro ⟨es, hes, rfl⟩
    rw [List.forall₂_map_right_iff]
    exact hes.imp fun _ _ he => element_eq_ok_iff.mpr ⟨_, he, rfl⟩

/-- Single elements of one kind, one above the other, are the column of them. -/
theorem above_singles (kind : Kind) {es : List (Expr α)} (hne : es ≠ []) :
    above (es.map fun e => column kind [e]) = .ok (column kind es) := by
  have hkinds : (es.map fun e => column kind [e]).map ExprMatrix.kind =
      List.replicate es.length kind := by
    rw [List.map_map]
    exact List.map_const'
  have hblocks : blocks (es.map fun e => column kind [e]) = es.map fun e => Grid.column [e] := by
    rw [blocks, List.map_map]
    exact List.filter_eq_self.mpr (List.forall_mem_map.mpr fun _ _ => rfl)
  have hcolumns : ∀ g ∈ es.map (fun e => Grid.column [e]), g.Full ∧ g.Narrow ∧ g.cols = 1 :=
    List.forall_mem_map.mpr fun _ _ => ⟨rfl, rfl, rfl⟩
  have hlength : es.length ≠ 0 := fun h => hne (List.length_eq_zero_iff.mp h)
  rw [above_eq_ok_iff, hkinds, hblocks]
  refine ⟨?_, 1, ⟨fun g hg => (hcolumns g hg).2.2, fun h => ?_⟩, ?_⟩
  · simp [Kind.Common, column, List.mem_replicate, hlength, eq_comm]
  · exact absurd (List.map_eq_nil_iff.mp h) hne
  · rw [Grid.aboveAll, Grid.aboveCells_of_narrow hcolumns]
    simp [column, Grid.column, List.flatMap_map, Function.comp_def]

/-! ## What the lower triangle is -/

/-- A column of all elements of a square matrix on and below the diagonal, each at its place. -/
structure Triangle (n : Nat) (m t : ExprMatrix α) : Prop where
  kind : t.kind = m.kind
  shape : t.shape = (n * (n + 1) / 2, 1)
  full : t.grid.Full
  entry : ∀ i j, j ≤ i → i < n → ∃ e, m.get i j = .ok e ∧ t.get (lowerPlace n i j) 0 = .ok e

namespace Triangle

/-- The element at any place is one of the matrix. -/
theorem exists_position (h : Triangle n m t) {k : Nat} (hk : k < n * (n + 1) / 2) :
    ∃ i j, j ≤ i ∧ i < n ∧ k = lowerPlace n i j ∧ t.get k 0 = m.get i j := by
  obtain ⟨⟨i, j⟩, ⟨hle, hlt⟩, rfl⟩ := (bijOn_lowerPlace n).surjOn hk
  obtain ⟨e, he, hplace⟩ := h.entry i j hle hlt
  exact ⟨i, j, hle, hlt, rfl, hplace.trans he.symm⟩

/-- There is only one such column. -/
theorem unique (h : Triangle n m t) (h' : Triangle n m t') : t = t' := by
  have hgrid : t.grid = t'.grid := by
    refine Grid.ext_of_get? h.full h'.full (h.shape.trans h'.shape.symm) fun k l hk hl => ?_
    obtain ⟨hrows, hcols⟩ := Prod.mk.inj h.shape
    obtain rfl : l = 0 := Nat.lt_one_iff.mp (hcols ▸ hl)
    obtain ⟨⟨i, j⟩, ⟨hle, hlt⟩, rfl⟩ := (bijOn_lowerPlace n).surjOn (hrows ▸ hk : k < _)
    obtain ⟨e, he, hplace⟩ := h.entry i j hle hlt
    obtain ⟨e', he', hplace'⟩ := h'.entry i j hle hlt
    obtain rfl := Except.ok.inj (he.symm.trans he')
    exact (get_eq_ok_iff.mp hplace).trans (get_eq_ok_iff.mp hplace').symm
  have hkind : t.kind = t'.kind := h.kind.trans h'.kind.symm
  cases t
  cases t'
  exact congrArg₂ ExprMatrix.mk hkind hgrid

/-- No element comes from elsewhere. -/
theorem mem (h : Triangle n m t) : ∀ e ∈ t.elements, e ∈ m.elements := by
  intro e he
  obtain ⟨k, hk⟩ := List.getElem?_of_mem he
  obtain ⟨hrows, hcols⟩ := Prod.mk.inj h.shape
  have hlength : t.grid.cells.length = n * (n + 1) / 2 := by
    rw [h.full, hrows, hcols, Nat.mul_one]
  have hlt := hlength ▸ (List.getElem?_eq_some_iff.mp hk).1
  have hget : t.get k 0 = .ok e := by
    rw [get_eq_ok_iff, Grid.get?_eq_some_iff, Nat.zero_mul, hrows, hcols]
    exact ⟨hlt, Nat.one_pos, hk⟩
  obtain ⟨i, j, _, _, _, heq⟩ := h.exists_position hlt
  exact Grid.mem_of_get? (get_eq_ok_iff.mp (heq.symm.trans hget))

/-- Elements above the diagonal do not matter, nor how many there are. -/
theorem congr (h : Triangle n m t) (hkind : m'.kind = m.kind)
    (hget : ∀ i j, j ≤ i → i < n → m'.get i j = m.get i j) : Triangle n m' t where
  kind := h.kind.trans hkind.symm
  shape := h.shape
  full := h.full
  entry i j hle hlt := hget i j hle hlt ▸ h.entry i j hle hlt

end Triangle

/-- The elements at the positions, one after the other, are the triangle. -/
theorem triangle_column {es : List (Expr α)}
    (h : List.Forall₂ (fun p e => m.get p.1 p.2 = .ok e) (lowerPositions n) es) :
    Triangle n m (column m.kind es) where
  kind := rfl
  shape := Prod.ext (h.length_eq.symm.trans (length_lowerPositions n)) rfl
  full := (Nat.mul_one es.length).symm
  entry i j hle hlt := by
    obtain ⟨e, hplace, he⟩ := Grid.forall₂_getElem? h (getElem?_lowerPositions hle hlt)
    refine ⟨e, he, ?_⟩
    rw [get_eq_ok_iff, Grid.get?_eq_some_iff, Nat.zero_mul]
    exact ⟨(List.getElem?_eq_some_iff.mp hplace).1, Nat.one_pos, hplace⟩

/-- Where a matrix has all elements of a lower triangle, they are listed. -/
theorem exists_lowerElements (h : ∀ i j, j ≤ i → i < n → ∃ e, m.get i j = .ok e) :
    ∃ es, List.Forall₂ (fun p e => m.get p.1 p.2 = .ok e) (lowerPositions n) es := by
  have hall : ∀ p ∈ lowerPositions n, ∃ e, m.get p.1 p.2 = .ok e ∧ True := by
    intro p hp
    obtain ⟨hle, hlt⟩ := mem_lowerPositions.mp hp
    obtain ⟨e, he⟩ := h p.1 p.2 hle hlt
    exact ⟨e, he, trivial⟩
  obtain ⟨es, hes, _⟩ := exists_mapM_ok hall
  exact ⟨es, mapM_eq_ok_iff.mp hes⟩

/-- The elements of the triangle are taken out one by one and make up a column. -/
theorem lowerTriangle_eq_column_iff (hn : 0 < n) (hrows : m.rows = n) :
    m.lowerTriangle = .ok t ↔
      ∃ es, List.Forall₂ (fun p e => m.get p.1 p.2 = .ok e) (lowerPositions n) es ∧
        t = column m.kind es := by
  have hne : ∀ {es : List (Expr α)}, List.Forall₂ (fun p e => m.get p.1 p.2 = .ok e)
      (lowerPositions n) es → es ≠ [] := by
    intro es hes hnil
    subst hnil
    have hfirst : (0, 0) ∈ lowerPositions n := mem_lowerPositions.mpr ⟨Nat.le_refl 0, hn⟩
    rw [List.forall₂_nil_right_iff.mp hes] at hfirst
    exact absurd hfirst List.not_mem_nil
  rw [lowerTriangle, hrows, bind_eq_ok_iff]
  constructor
  · rintro ⟨parts, hparts, h⟩
    obtain ⟨es, hes, rfl⟩ := mapM_element_eq_ok_iff.mp hparts
    rw [above_singles m.kind (hne hes)] at h
    exact ⟨es, hes, (Except.ok.inj h).symm⟩
  · rintro ⟨es, hes, rfl⟩
    exact ⟨_, mapM_element_eq_ok_iff.mpr ⟨es, hes, rfl⟩, above_singles m.kind (hne hes)⟩

/-- **What is taken out of a matrix is its lower triangle**, and it is taken out if it is there. -/
theorem lowerTriangle_eq_ok_iff (hn : 0 < n) (hrows : m.rows = n) :
    m.lowerTriangle = .ok t ↔ Triangle n m t := by
  rw [lowerTriangle_eq_column_iff hn hrows]
  constructor
  · rintro ⟨es, hes, rfl⟩
    exact triangle_column hes
  · intro h
    obtain ⟨es, hes⟩ := exists_lowerElements fun i j hle hlt =>
      (h.entry i j hle hlt).imp fun _ he => he.1
    exact ⟨es, hes, h.unique (triangle_column hes)⟩

/-- A whole square matrix has a lower triangle. -/
theorem exists_lowerTriangle (hn : 0 < n) (hshape : m.shape = (n, n)) (hfull : m.grid.Full) :
    ∃ t, m.lowerTriangle = .ok t ∧ Triangle n m t := by
  obtain ⟨hrows, hcols⟩ := Prod.mk.inj hshape
  obtain ⟨es, hes⟩ := exists_lowerElements (m := m) (n := n) fun i j hle hlt => by
    obtain ⟨e, he⟩ := hfull.exists_get? (i := i) (j := j) (by omega) (by omega)
    exact ⟨e, get_eq_ok_iff.mpr he⟩
  have htriangle := triangle_column hes
  exact ⟨_, (lowerTriangle_eq_ok_iff hn hrows).mpr htriangle, htriangle⟩

theorem lowerTriangle_proper {P : Nat → Prop} (hn : 0 < n) (h : m.Proper kind P n n) :
    ∃ t, m.lowerTriangle = .ok t ∧ t.Proper kind P (n * (n + 1) / 2) 1 := by
  obtain ⟨t, hrun, htriangle⟩ := exists_lowerTriangle hn h.shape h.full
  exact ⟨t, hrun, htriangle.kind ▸ h.kind, htriangle.shape, htriangle.full,
    fun e he => h.isOver e (htriangle.mem e he)⟩

/-- **A square matrix has a lower triangle with each of its elements on and below the diagonal at
its place**, where positions and places correspond one to one. Another matrix has the same lower
triangle if it has the same elements there, whatever it has above the diagonal. -/
theorem lowerTriangle_places (hn : 0 < n) (hshape : m.shape = (n, n)) (hfull : m.grid.Full) :
    (∃ t, m.lowerTriangle = .ok t ∧ Triangle n m t) ∧
    Set.BijOn (fun p : Nat × Nat => lowerPlace n p.1 p.2) {p | p.2 ≤ p.1 ∧ p.1 < n}
      (Set.Iio (n * (n + 1) / 2)) ∧
    ∀ m' : ExprMatrix α, m'.kind = m.kind → m'.rows = n →
      (∀ i j, j ≤ i → i < n → m'.get i j = m.get i j) → m'.lowerTriangle = m.lowerTriangle := by
  obtain ⟨t, hrun, htriangle⟩ := exists_lowerTriangle hn hshape hfull
  refine ⟨⟨t, hrun, htriangle⟩, bijOn_lowerPlace n, fun m' hkind hrows hget => ?_⟩
  rw [hrun, lowerTriangle_eq_ok_iff hn hrows]
  exact htriangle.congr hkind hget

/-- Nine symbols in three columns. -/
def nine : ExprMatrix Float :=
  ⟨.sx, ⟨3, 3, [.symbol 0 "a", .symbol 1 "b", .symbol 2 "c", .symbol 3 "d", .symbol 4 "e",
    .symbol 5 "f", .symbol 6 "g", .symbol 7 "h", .symbol 8 "i"]⟩⟩

/-- Column by column `e` is behind `c`; above the diagonal other symbols do as well. -/
theorem lowerTriangle_places_nine :
    (∃ t, nine.lowerTriangle = .ok t ∧ t.shape = (6, 1) ∧
      t.get 2 0 = .ok (.symbol 2 "c") ∧ t.get 3 0 = .ok (.symbol 4 "e")) ∧
    (⟨.sx, ⟨3, 3, [.symbol 0 "a", .symbol 1 "b", .symbol 2 "c", .symbol 9 "x", .symbol 4 "e",
      .symbol 5 "f", .symbol 9 "x", .symbol 9 "x", .symbol 8 "i"]⟩⟩ :
        ExprMatrix Float).lowerTriangle = nine.lowerTriangle := by
  obtain ⟨⟨t, hrun, htriangle⟩, _, hread⟩ :=
    lowerTriangle_places (m := nine) (n := 3) (by decide) rfl rfl
  refine ⟨⟨t, hrun, htriangle.shape, ?_, ?_⟩, hread _ rfl rfl fun i j hle hlt => ?_⟩
  · obtain ⟨e, he, hplace⟩ := htriangle.entry 2 0 (by decide) (by decide)
    obtain rfl : .symbol 2 "c" = e := Except.ok.inj he
    exact hplace
  · obtain ⟨e, he, hplace⟩ := htriangle.entry 1 1 (by decide) (by decide)
    obtain rfl : .symbol 4 "e" = e := Except.ok.inj he
    exact hplace
  · interval_cases i <;> interval_cases j <;> rfl

end ExprMatrix

end ExplicitOde
