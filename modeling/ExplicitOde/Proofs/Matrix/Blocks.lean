import ExplicitOde.Matrix.Blocks
import ExplicitOde.Proofs.Computation
import ExplicitOde.Proofs.Matrix.Kind
import ExplicitOde.Proofs.Matrix.Value
import Mathlib.Data.Matrix.ColumnRowPartitioned
import Mathlib.Logic.Equiv.Fin.Basic

/-!
# Values of assembled matrices

Matrices can be assembled if their kinds do not mix and the grids that take part agree in one
measure, the rows or the columns (`Even`). Both ways to assemble are one in this
(`assembly_eq_ok_iff`), and what comes out is all grids side by side or one above the other.

Blocks keep their elements, so the value of the whole is assembled of the values of the blocks. No
expressions are built, and what is true of elements stays true.

Grids without rows and columns take no part in an assembly; for the blocks of one row or of one
column that makes no difference, because such a block has no elements to lose.
-/

namespace ExplicitOde

open Matrix

variable {α : Type}

/-! ## When an assembly succeeds -/

namespace ExprMatrix

variable {parts : List (ExprMatrix α)} {m : ExprMatrix α} {kind : Kind} {operation : Operation}
  {gs : List (Grid (Expr α))} {f : Grid (Expr α) → Nat} {n : Nat}

theorem mem_blocks {parts : List (ExprMatrix α)} {g : Grid (Expr α)} :
    g ∈ blocks parts ↔ (∃ p ∈ parts, p.grid = g) ∧ g.isNothing = false := by
  rw [blocks, List.mem_filter, List.mem_map, Bool.not_eq_true']

theorem isNothing_iff {g : Grid (Expr α)} : g.isNothing = true ↔ g.rows = 0 ∧ g.cols = 0 := by
  rw [Grid.isNothing, Bool.and_eq_true, beq_iff_eq, beq_iff_eq]

/-- All of the grids have this measure; if there are none, it is zero. -/
structure Even (f : Grid (Expr α) → Nat) (n : Nat) (gs : List (Grid (Expr α))) : Prop where
  all : ∀ g ∈ gs, f g = n
  zero : gs = [] → n = 0

theorem even_cons_iff {first : Grid (Expr α)} {others : List (Grid (Expr α))} :
    Even f n (first :: others) ↔ n = f first ∧ ∀ g ∈ others, f g = f first := by
  constructor
  · rintro ⟨hall, _⟩
    obtain rfl := hall first List.mem_cons_self
    exact ⟨rfl, fun g hg => hall g (List.mem_cons_of_mem first hg)⟩
  · rintro ⟨rfl, hothers⟩
    exact ⟨List.forall_mem_cons.mpr ⟨rfl, hothers⟩, fun h => absurd h (List.cons_ne_nil _ _)⟩

/-- Grids of one measure are even, with zero for no grids at all. -/
theorem exists_even (h : ∀ g ∈ gs, f g = n) : ∃ k, Even f k gs := by
  cases gs with
  | nil => exact ⟨0, List.forall_mem_nil _, fun _ => rfl⟩
  | cons g gs => exact ⟨n, h, fun hnil => absurd hnil (List.cons_ne_nil g gs)⟩

theorem checkShapes_eq_ok_iff {agrees : Grid (Expr α) → Bool} {first : Grid (Expr α)}
    {others : List (Grid (Expr α))} :
    checkShapes operation agrees first others = .ok () ↔ ∀ g ∈ others, agrees g = true := by
  rw [checkShapes]
  cases hfind : others.find? (fun g => !agrees g) with
  | none =>
      refine iff_of_true rfl fun g hg => ?_
      simpa using List.find?_eq_none.mp hfind g hg
  | some g =>
      have hg : agrees g = false := by simpa using List.find?_some hfind
      refine iff_of_false (fun h => ?_) fun hall => ?_
      · cases h
      · exact absurd (hall g (List.mem_of_find?_eq_some hfind)) (Bool.eq_false_iff.mp hg)

/-- Both assemblies look at the kinds, then at one measure of the blocks. -/
theorem assembly_eq_ok_iff (operation : Operation) (f : Grid (Expr α) → Nat)
    (whole : Nat → List (Grid (Expr α)) → Grid (Expr α)) (hnil : whole 0 [] = ⟨0, 0, []⟩) :
    (show Except AlgebraError (ExprMatrix α) from do
      let kind ← combineKinds operation (parts.map ExprMatrix.kind)
      match blocks parts with
      | [] => return ⟨kind, ⟨0, 0, []⟩⟩
      | first :: others =>
        checkShapes operation (fun g => f g == f first) first others
        return ⟨kind, whole (f first) (first :: others)⟩) = .ok m ↔
    m.kind.Common (parts.map ExprMatrix.kind) ∧
      ∃ n, Even f n (blocks parts) ∧ m.grid = whole n (blocks parts) := by
  cases hkinds : combineKinds operation (parts.map ExprMatrix.kind) with
  | error e =>
      refine iff_of_false (fun h => ?_) fun h => ?_
      · cases h
      · cases hkinds.symm.trans (combineKinds_of_common operation h.1)
  | ok kind =>
      have hmatrix : ∀ grid : Grid (Expr α), (⟨kind, grid⟩ : ExprMatrix α) = m ↔
          m.kind.Common (parts.map ExprMatrix.kind) ∧ m.grid = grid := by
        intro grid
        have hcommon := combineKinds_eq_ok_iff.mp hkinds
        constructor
        · rintro rfl
          exact ⟨hcommon, rfl⟩
        · rintro ⟨hkind, rfl⟩
          rw [hcommon.unique hkind]
      dsimp only [bind, Except.bind, pure, Except.pure]
      cases blocks parts with
      | nil =>
          rw [Except.ok.injEq, hmatrix, ← hnil]
          refine and_congr_right fun _ => ⟨fun h => ?_, ?_⟩
          · exact ⟨0, ⟨List.forall_mem_nil _, fun _ => rfl⟩, h⟩
          · rintro ⟨n, heven, h⟩
            rwa [heven.zero rfl] at h
      | cons first others =>
          have hcheck : checkShapes operation (fun g => f g == f first) first others = .ok () ↔
              ∀ g ∈ others, (f g == f first) = true := checkShapes_eq_ok_iff
          simp only [beq_iff_eq] at hcheck
          simp only [even_cons_iff, and_assoc, exists_eq_left, ← hcheck]
          cases checkShapes operation (fun g => f g == f first) first others with
          | error e => simp
          | ok => simp [hmatrix]

/-- **Matrices can be put side by side if their kinds do not mix and the blocks have equally many
rows**, and this is what they give. -/
theorem beside_eq_ok_iff : beside parts = .ok m ↔ m.kind.Common (parts.map ExprMatrix.kind) ∧
    ∃ rows, Even Grid.rows rows (blocks parts) ∧ m.grid = Grid.besideAll rows (blocks parts) :=
  assembly_eq_ok_iff .beside Grid.rows Grid.besideAll rfl

/-- **Matrices can be put one above the other if their kinds do not mix and the blocks have equally
many columns**, and this is what they give. -/
theorem above_eq_ok_iff : above parts = .ok m ↔ m.kind.Common (parts.map ExprMatrix.kind) ∧
    ∃ cols, Even Grid.cols cols (blocks parts) ∧ m.grid = Grid.aboveAll cols (blocks parts) :=
  assembly_eq_ok_iff .above Grid.cols Grid.aboveAll rfl

end ExprMatrix

/-! ## What is passed over -/

/-- Leaving out elements that contribute nothing. -/
theorem flatMap_filter {β γ : Type} {keep : β → Bool} {f : β → List γ} {bs : List β}
    (h : ∀ b ∈ bs, keep b = false → f b = []) : (bs.filter keep).flatMap f = bs.flatMap f := by
  induction bs with
  | nil => rfl
  | cons b bs ih =>
      have hrest := ih fun b' hb' => h b' (List.mem_cons_of_mem b hb')
      cases hb : keep b with
      | true => rw [List.filter_cons_of_pos hb, List.flatMap_cons, List.flatMap_cons, hrest]
      | false =>
          rw [List.filter_cons_of_neg (by simp [hb]), List.flatMap_cons, hrest,
            h b List.mem_cons_self hb, List.nil_append]

theorem sum_filter {β : Type} {keep : β → Bool} {f : β → Nat} {bs : List β}
    (h : ∀ b ∈ bs, keep b = false → f b = 0) :
    ((bs.filter keep).map f).sum = (bs.map f).sum := by
  induction bs with
  | nil => rfl
  | cons b bs ih =>
      have hrest := ih fun b' hb' => h b' (List.mem_cons_of_mem b hb')
      cases hb : keep b with
      | true => rw [List.filter_cons_of_pos hb, List.map_cons, List.sum_cons, hrest, List.map_cons,
          List.sum_cons]
      | false =>
          rw [List.filter_cons_of_neg (by simp [hb]), List.map_cons, List.sum_cons, hrest,
            h b List.mem_cons_self hb, Nat.zero_add]

namespace ExprMatrix

variable {parts : List (ExprMatrix α)} {m : ExprMatrix α} {kind : Kind} {rows cols n : Nat}
  {f : Grid (Expr α) → Nat}

theorem not_keep_iff {g : Grid (Expr α)} : (!g.isNothing) = false ↔ g.rows = 0 ∧ g.cols = 0 := by
  rw [Bool.not_eq_false', isNothing_iff]

theorem cells_of_isNothing {g : Grid (Expr α)} (h : g.Full) (hg : g.rows = 0 ∧ g.cols = 0) :
    g.cells = [] := by
  rw [← List.length_eq_zero_iff, h, hg.1, Nat.zero_mul]

/-- If all matrices are left out, each of them is nothing. -/
theorem isNothing_of_blocks_eq_nil (h : blocks parts = []) {p : ExprMatrix α} (hp : p ∈ parts) :
    p.grid.rows = 0 ∧ p.grid.cols = 0 := by
  refine isNothing_iff.mp ?_
  by_contra hsome
  have hmem : p.grid ∈ blocks parts := mem_blocks.mpr ⟨⟨p, hp, rfl⟩, eq_false_of_ne_true hsome⟩
  rw [h] at hmem
  exact absurd hmem List.not_mem_nil

/-- The measure of the blocks is that of the matrices, also if all of them are left out. -/
theorem even_measure {k : Nat} (hnothing : ∀ g : Grid (Expr α), g.rows = 0 ∧ g.cols = 0 → f g = 0)
    (hne : parts ≠ []) (hparts : ∀ p ∈ parts, f p.grid = n) (h : Even f k (blocks parts)) :
    k = n := by
  by_cases hblocks : blocks parts = []
  · obtain ⟨p, hp⟩ := List.exists_mem_of_ne_nil parts hne
    rw [h.zero hblocks, ← hparts p hp, hnothing _ (isNothing_of_blocks_eq_nil hblocks hp)]
  · obtain ⟨g, hg⟩ := List.exists_mem_of_ne_nil _ hblocks
    obtain ⟨⟨p, hp, rfl⟩, _⟩ := mem_blocks.mp hg
    exact (h.all _ hg).symm.trans (hparts p hp)

theorem full_of_mem_grids (hparts : ∀ p ∈ parts, p.grid.Full) : ∀ g ∈ parts.map grid, g.Full :=
  List.forall_mem_map.mpr hparts

/-- **Matrices of equally many rows are put side by side.** -/
theorem grid_beside (hne : parts ≠ []) (hparts : ∀ p ∈ parts, p.grid.Full ∧ p.grid.rows = rows)
    (h : beside parts = .ok m) : m.grid = Grid.besideAll rows (parts.map grid) := by
  obtain ⟨_, k, heven, hm⟩ := beside_eq_ok_iff.mp h
  obtain rfl := even_measure (fun _ hg => hg.1) hne (fun p hp => (hparts p hp).2) heven
  have hfull := full_of_mem_grids fun p hp => (hparts p hp).1
  have hcols : ((blocks parts).map Grid.cols).sum = ((parts.map grid).map Grid.cols).sum :=
    sum_filter fun g _ hkeep => (not_keep_iff.mp hkeep).2
  have hcells : Grid.besideCells (blocks parts) = Grid.besideCells (parts.map grid) :=
    flatMap_filter fun g hg hkeep => cells_of_isNothing (hfull g hg) (not_keep_iff.mp hkeep)
  rw [hm, Grid.besideAll, hcols, hcells, Grid.besideAll]

/-- **Matrices of equally many columns are put one above the other.** -/
theorem grid_above (hne : parts ≠ []) (hparts : ∀ p ∈ parts, p.grid.Full ∧ p.grid.cols = cols)
    (h : above parts = .ok m) : m.grid = Grid.aboveAll cols (parts.map grid) := by
  obtain ⟨_, k, heven, hm⟩ := above_eq_ok_iff.mp h
  obtain rfl := even_measure (fun _ hg => hg.2) hne (fun p hp => (hparts p hp).2) heven
  have hfull := full_of_mem_grids fun p hp => (hparts p hp).1
  have hrows : ((blocks parts).map Grid.rows).sum = ((parts.map grid).map Grid.rows).sum :=
    sum_filter fun g _ hkeep => (not_keep_iff.mp hkeep).1
  have hcells : Grid.aboveCells k (blocks parts) = Grid.aboveCells k (parts.map grid) := by
    refine List.flatMap_congr fun j _ => flatMap_filter fun g hg hkeep => ?_
    rw [Grid.columnCells, cells_of_isNothing (hfull g hg) (not_keep_iff.mp hkeep), List.drop_nil,
      List.take_nil]
  rw [hm, Grid.aboveAll, hrows, hcells, Grid.aboveAll]

theorem exists_even_blocks (hparts : ∀ p ∈ parts, f p.grid = n) :
    ∃ k, Even f k (blocks parts) := by
  have hblocks : ∀ g ∈ blocks parts, f g = n := by
    intro g hg
    obtain ⟨⟨p, hp, rfl⟩, _⟩ := mem_blocks.mp hg
    exact hparts p hp
  exact exists_even hblocks

/-- Matrices whose kinds do not mix and of equally many rows can be put side by side. -/
theorem beside_succeeds (hkind : kind.Common (parts.map ExprMatrix.kind))
    (hrows : ∀ p ∈ parts, p.grid.rows = rows) : ∃ m, beside parts = .ok m ∧ m.kind = kind := by
  obtain ⟨k, heven⟩ := exists_even_blocks hrows
  exact ⟨⟨kind, _⟩, beside_eq_ok_iff.mpr ⟨hkind, k, heven, rfl⟩, rfl⟩

/-- Matrices whose kinds do not mix and of equally many columns can be put one above the other. -/
theorem above_succeeds (hkind : kind.Common (parts.map ExprMatrix.kind))
    (hcols : ∀ p ∈ parts, p.grid.cols = cols) : ∃ m, above parts = .ok m ∧ m.kind = kind := by
  obtain ⟨k, heven⟩ := exists_even_blocks hcols
  exact ⟨⟨kind, _⟩, above_eq_ok_iff.mpr ⟨hkind, k, heven, rfl⟩, rfl⟩

/-- **Narrow matrices one above the other: their elements follow each other.** -/
theorem elements_above (hparts : ∀ p ∈ parts, p.grid.Full ∧ p.grid.Narrow)
    (h : above parts = .ok m) :
    m.elements = parts.flatMap elements ∧ m.rows = (parts.map ExprMatrix.rows).sum ∧
      (0 < m.rows → m.cols = 1) := by
  obtain ⟨_, cols, heven, hm⟩ := above_eq_ok_iff.mp h
  have hmem : ∀ g ∈ blocks parts, g.Full ∧ g.Narrow ∧ g.cols = cols := by
    intro g hg
    obtain ⟨⟨p, hp, rfl⟩, _⟩ := mem_blocks.mp hg
    exact ⟨(hparts p hp).1, (hparts p hp).2, heven.all _ hg⟩
  have hfull := full_of_mem_grids fun p hp => (hparts p hp).1
  have hrows : ((blocks parts).map Grid.rows).sum = (parts.map ExprMatrix.rows).sum := by
    refine (sum_filter fun g _ hkeep => (not_keep_iff.mp hkeep).1).trans ?_
    rw [List.map_map]
    rfl
  have hcells : (blocks parts).flatMap Grid.cells = parts.flatMap elements := by
    refine (flatMap_filter fun g hg hkeep =>
      cells_of_isNothing (hfull g hg) (not_keep_iff.mp hkeep)).trans ?_
    rw [List.flatMap_map]
    rfl
  rw [elements, ExprMatrix.rows, ExprMatrix.cols, hm]
  refine ⟨(Grid.aboveCells_of_narrow hmem).trans hcells, hrows, fun hpos => ?_⟩
  -- a grid with rows is a column, and all have the same columns
  by_contra hne
  have hzero : ((blocks parts).map Grid.rows).sum = 0 := by
    refine List.sum_eq_zero fun n hn => ?_
    obtain ⟨g, hg, rfl⟩ := List.mem_map.mp hn
    obtain ⟨hfull, hnarrow, hgcols⟩ := hmem g hg
    exact (hfull.cols_of_narrow hnarrow).resolve_right fun hone => hne (hgcols ▸ hone)
  exact absurd hpos (Nat.not_lt.mpr (Nat.le_of_eq hzero))

end ExprMatrix

/-! ## Single elements -/

namespace ExprMatrix

variable {m t : ExprMatrix α} {i j : Nat}

theorem get_eq_ok_iff {e : Expr α} : m.get i j = .ok e ↔ m.grid.get? i j = some e := by
  rw [get]
  cases m.grid.get? i j <;> simp

theorem element_eq_ok_iff :
    m.element i j = .ok t ↔ ∃ e, m.get i j = .ok e ∧ t = column m.kind [e] := by
  rw [element, bind_eq_ok_iff]
  refine exists_congr fun e => and_congr_right fun _ => ?_
  constructor
  · intro h
    exact (Except.ok.inj h).symm
  · rintro rfl
    rfl

end ExprMatrix

/-! ## Values -/

variable [ExactScalar α] {r : Regularity} {σ : Nat → ℝ} {pool : Pool α}
  {rows rows' cols cols' : Nat} {a b m : ExprMatrix α}

open ExprMatrix

/-- **Two matrices side by side have their values side by side.** -/
theorem hasMatrix_beside {A : Matrix (Fin rows) (Fin cols) ℝ} {B : Matrix (Fin rows) (Fin cols') ℝ}
    (ha : pool.HasMatrix r σ a A) (hb : pool.HasMatrix r σ b B) (h : beside [a, b] = .ok m) :
    pool.HasMatrix r σ m ((fromCols A B).submatrix id finSumFinEquiv.symm) := by
  have hparts : ∀ p ∈ [a, b], p.grid.Full ∧ p.grid.rows = rows := by
    simpa using ⟨⟨ha.full, ha.rows_eq⟩, hb.full, hb.rows_eq⟩
  have hgrids : ∀ g ∈ [a.grid, b.grid], g.Full ∧ g.rows = rows := by
    simpa using ⟨⟨ha.full, ha.rows_eq⟩, hb.full, hb.rows_eq⟩
  have hgrid : m.grid = Grid.besideAll rows [a.grid, b.grid] :=
    grid_beside (List.cons_ne_nil a [b]) hparts h
  refine ⟨?_, ?_, fun i j => ?_⟩
  · rw [ExprMatrix.shape, hgrid, Grid.shape]
    simp [Grid.besideAll, ha.cols_eq, hb.cols_eq]
  · rw [hgrid]
    exact Grid.full_besideAll hgrids
  · rw [hgrid]
    -- every column is one of the left matrix or one of the right
    obtain ⟨k, rfl⟩ := finSumFinEquiv.surjective j
    cases k with
    | inl j =>
        have hget : (Grid.besideAll rows ([] ++ a.grid :: [b.grid])).get? i
            (([].map Grid.cols).sum + j) = a.grid.get? i j :=
          Grid.get?_besideAll hgrids i.isLt (j.isLt.trans_eq ha.cols_eq.symm)
        obtain ⟨e, he, hhas⟩ := ha.entry i j
        exact ⟨e, by simpa [he] using hget, hhas.congr (by simp)⟩
    | inr j =>
        have hget : (Grid.besideAll rows ([a.grid] ++ b.grid :: [])).get? i
            (([a.grid].map Grid.cols).sum + j) = b.grid.get? i j :=
          Grid.get?_besideAll hgrids i.isLt (j.isLt.trans_eq hb.cols_eq.symm)
        obtain ⟨e, he, hhas⟩ := hb.entry i j
        exact ⟨e, by simpa [he, ha.cols_eq] using hget, hhas.congr (by simp)⟩

/-- **Two matrices one above the other have their values one above the other.** -/
theorem hasMatrix_above {A : Matrix (Fin rows) (Fin cols) ℝ} {B : Matrix (Fin rows') (Fin cols) ℝ}
    (ha : pool.HasMatrix r σ a A) (hb : pool.HasMatrix r σ b B) (h : above [a, b] = .ok m) :
    pool.HasMatrix r σ m ((fromRows A B).submatrix finSumFinEquiv.symm id) := by
  have hparts : ∀ p ∈ [a, b], p.grid.Full ∧ p.grid.cols = cols := by
    simpa using ⟨⟨ha.full, ha.cols_eq⟩, hb.full, hb.cols_eq⟩
  have hgrids : ∀ g ∈ [a.grid, b.grid], g.Full ∧ g.cols = cols := by
    simpa using ⟨⟨ha.full, ha.cols_eq⟩, hb.full, hb.cols_eq⟩
  have hgrid : m.grid = Grid.aboveAll cols [a.grid, b.grid] :=
    grid_above (List.cons_ne_nil a [b]) hparts h
  refine ⟨?_, ?_, fun i j => ?_⟩
  · rw [ExprMatrix.shape, hgrid, Grid.shape]
    simp [Grid.aboveAll, ha.rows_eq, hb.rows_eq]
  · rw [hgrid]
    exact Grid.full_aboveAll hgrids
  · rw [hgrid]
    -- every row is one of the upper matrix or one of the lower
    obtain ⟨k, rfl⟩ := finSumFinEquiv.surjective i
    cases k with
    | inl i =>
        have hget : (Grid.aboveAll cols ([] ++ a.grid :: [b.grid])).get?
            (([].map Grid.rows).sum + i) j = a.grid.get? i j :=
          Grid.get?_aboveAll hgrids (i.isLt.trans_eq ha.rows_eq.symm) j.isLt
        obtain ⟨e, he, hhas⟩ := ha.entry i j
        exact ⟨e, by simpa [he] using hget, hhas.congr (by simp)⟩
    | inr i =>
        have hget : (Grid.aboveAll cols ([a.grid] ++ b.grid :: [])).get?
            (([a.grid].map Grid.rows).sum + i) j = b.grid.get? i j :=
          Grid.get?_aboveAll hgrids (i.isLt.trans_eq hb.rows_eq.symm) j.isLt
        obtain ⟨e, he, hhas⟩ := hb.entry i j
        exact ⟨e, by simpa [he, ha.rows_eq] using hget, hhas.congr (by simp)⟩

end ExplicitOde
