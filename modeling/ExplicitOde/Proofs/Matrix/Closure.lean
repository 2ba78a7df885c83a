import ExplicitOde.Proofs.Matrix.Success

/-!
# The symbols of results

An operation on matrices makes its result of the elements of its operands and of constants, so the
result has no other symbols. This is stated for a set of symbols for each kind of matrices:
`ExprMatrix.Keeps`. Kinds combine only if there is but one besides numbers, **so a matrix has no
symbols but those of its kind, whatever operations it was made by**.

Nothing else is asked of the operands, and the operations may be refused.
-/

namespace ExplicitOde

open ExplicitOde.Expr

variable {α : Type}

namespace ExprMatrix

variable {operation : Operation} {a b m expr arg seed : ExprMatrix α} {r : Kind}

/-! ## Symbols of a kind -/

/-- All symbols of the matrix are among those of its kind. -/
def Keeps (P : Kind → Nat → Prop) (m : ExprMatrix α) : Prop := ∀ e ∈ m.elements, e.Over (P m.kind)

variable {P Q : Kind → Nat → Prop}

theorem Keeps.imp (h : m.Keeps P) (hPQ : ∀ k i, P k i → Q k i) : m.Keeps Q :=
  fun e he => (h e he).imp (hPQ m.kind)

/-- What is made of constants has no symbols. -/
theorem Proper.keeps {kind : Kind} {rows cols : Nat}
    (h : m.Proper kind (fun _ => False) rows cols) : m.Keeps P :=
  fun e he => (h.isOver e he).imp fun _ hfalse => hfalse.elim

theorem numeric_keeps (values : Grid α) :
    Always (numeric values : Build (ExprMatrix α)) (Keeps P) := by
  refine (Always.mapM fun v _ => over_mkConst (P .dm) v).bind fun cells hcells => ?_
  exact Always.pure hcells

section Operations

/-! Symbols of numeric matrices, if there can be any, count for all kinds. -/

variable (hdm : ∀ k i, P .dm i → P k i)

include hdm

/-- The elements of an operand are over the symbols of the result's kind. -/
theorem Keeps.over (h : m.Keeps P) (hk : m.kind = r ∨ m.kind = .dm) :
    ∀ e ∈ m.elements, e.Over (P r) := by
  intro e he
  have hover := h e he
  rcases hk with hk | hk
  · rwa [hk] at hover
  · rw [hk] at hover
    exact hover.imp (hdm r)

theorem Keeps.over_columnCells (h : m.Keeps P) (hk : m.kind = r ∨ m.kind = .dm) (j : Nat) :
    ∀ e ∈ m.grid.columnCells j, e.Over (P r) :=
  fun e he => h.over hdm hk e (Grid.mem_of_mem_columnCells he)

/-- The cells of all blocks are over the symbols of the common kind. -/
theorem over_of_mem_blocks {parts : List (ExprMatrix α)} (h : ∀ p ∈ parts, p.Keeps P)
    (hr : r.Common (parts.map kind)) {g : Grid (Expr α)} (hg : g ∈ blocks parts) :
    ∀ e ∈ g.cells, e.Over (P r) := by
  obtain ⟨⟨p, hp, rfl⟩, _⟩ := mem_blocks.mp hg
  exact (h p hp).over hdm (hr.eq_or_dm _ (List.mem_map_of_mem hp))

theorem beside_keeps {parts : List (ExprMatrix α)} (h : ∀ p ∈ parts, p.Keeps P)
    (hm : beside parts = .ok m) : m.Keeps P := by
  obtain ⟨hkind, rows, _, hgrid⟩ := beside_eq_ok_iff.mp hm
  intro e he
  rw [elements, hgrid] at he
  obtain ⟨g, hg, hcell⟩ := List.mem_flatMap.mp he
  exact over_of_mem_blocks hdm h hkind hg e hcell

theorem above_keeps {parts : List (ExprMatrix α)} (h : ∀ p ∈ parts, p.Keeps P)
    (hm : above parts = .ok m) : m.Keeps P := by
  obtain ⟨hkind, cols, _, hgrid⟩ := above_eq_ok_iff.mp hm
  intro e he
  rw [elements, hgrid] at he
  obtain ⟨j, _, hj⟩ := List.mem_flatMap.mp he
  obtain ⟨g, hg, hcell⟩ := List.mem_flatMap.mp hj
  exact over_of_mem_blocks hdm h hkind hg e (Grid.mem_of_mem_columnCells hcell)

omit hdm in
theorem transpose_keeps (h : m.Keeps P) : m.transpose.Keeps P := by
  intro e he
  obtain ⟨i, _, hi⟩ := List.mem_flatMap.mp he
  obtain ⟨j, _, hj⟩ := List.mem_filterMap.mp hi
  exact h e (Grid.mem_of_get? hj)

omit hdm in
theorem element_keeps {i j : Nat} (h : m.Keeps P) (ha : m.element i j = .ok a) : a.Keeps P := by
  obtain ⟨e, he, rfl⟩ := element_eq_ok_iff.mp ha
  intro e' he'
  rw [List.mem_singleton.mp he']
  exact h e (Grid.mem_of_get? (get_eq_ok_iff.mp he))

theorem lowerTriangle_keeps (h : m.Keeps P) (ha : m.lowerTriangle = .ok a) : a.Keeps P := by
  rw [lowerTriangle] at ha
  obtain ⟨parts, hparts, ha⟩ := bind_eq_ok_iff.mp ha
  refine above_keeps hdm (fun part hpart => ?_) ha
  obtain ⟨p, _, hp⟩ := Grid.exists_of_mem_forall₂ (mapM_eq_ok_iff.mp hparts) hpart
  exact element_keeps h hp

variable [Scalar α]

omit hdm in
theorem zeros_keeps (kind : Kind) (rows cols : Nat) :
    Always (zeros kind rows cols : Build (ExprMatrix α)) (Keeps P) :=
  (zeros_proper kind _ rows cols).imp fun _ h => h.keeps

omit hdm in
theorem identity_keeps (kind : Kind) (n : Nat) :
    Always (identity kind n : Build (ExprMatrix α)) (Keeps P) :=
  (identity_proper kind _ n).imp fun _ h => h.keeps

theorem add_keeps (ha : a.Keeps P) (hb : b.Keeps P) : OnSuccess (add a b) (Keeps P) := by
  rw [add, elementwise]
  refine .check_bind fun r hr => ?_
  obtain ⟨hkind, hkind'⟩ := combinePair_eq_ok hr
  have hcells : Always ((a.elements.zip b.elements).mapM fun p => mkBinary .add p.1 p.2)
      fun cells => ∀ e ∈ cells, e.Over (P r) := Always.mapM fun p hp =>
    over_mkBinary .add (ha.over hdm hkind _ (List.of_mem_zip hp).1)
      (hb.over hdm hkind' _ (List.of_mem_zip hp).2)
  split
  · rw [mapM_lift]
    exact (OnSuccess.lift hcells).bind fun cells h => .pure h
  · exact .fail

theorem mul_keeps (ha : a.Keeps P) (hb : b.Keeps P) : OnSuccess (mul a b) (Keeps P) := by
  rw [mul]
  refine .check_bind fun r hr => ?_
  obtain ⟨hkind, hkind'⟩ := combinePair_eq_ok hr
  have hcells : Always (productCells a.grid b.grid) fun cells => ∀ e ∈ cells, e.Over (P r) := by
    refine Always.mapM fun p _ => over_dot (fun x hx => ?_) (hb.over_columnCells hdm hkind' p.2)
    obtain ⟨j, _, hj⟩ := List.mem_filterMap.mp hx
    exact ha.over hdm hkind x (Grid.mem_of_get? hj)
  split
  · exact (OnSuccess.lift hcells).bind fun cells h => .pure h
  · exact .fail

omit hdm [Scalar α] in
/-- A matrix of columns, each over the symbols of a kind. -/
theorem columns_keeps {f : Nat → Build (List (Expr α))} {rows cols : Nat}
    (h : ∀ j, Always (f j) fun es => ∀ e ∈ es, e.Over (P r)) :
    OnSuccess (do
      let columns ← ((List.range cols).mapM f : Build _)
      ofElements r rows cols columns.flatten : Attempt AlgebraError (ExprMatrix α)) (Keeps P) := by
  refine (OnSuccess.lift (Always.mapM fun j _ => h j)).bind fun columns hcolumns => ?_
  refine .check fun m hm => ?_
  rw [(ofElements_eq_ok_iff.mp hm).2]
  intro e he
  obtain ⟨c, hc, hec⟩ := List.mem_flatten.mp he
  exact hcolumns c hc e hec

theorem forwardDerivative_keeps (hexpr : expr.Keeps P) (hseed : seed.Keeps P) :
    OnSuccess (expr.forwardDerivative arg seed) (Keeps P) := by
  rw [forwardDerivative]
  refine .check_bind fun r hr => .refuse fun _ => .check_bind fun symbols _ => ?_
  have hkinds := combineKinds_eq_ok hr
  simp only [mapM_lift]
  refine columns_keeps fun j => ?_
  exact over_tangents (over_evaluationOrder (hexpr.over hdm (hkinds _ (by simp))))
    (tableOver_directionOf (hseed.over_columnCells hdm (hkinds _ (by simp)) j))

theorem jacobian_keeps (hexpr : expr.Keeps P) : OnSuccess (expr.jacobian arg) (Keeps P) := by
  rw [jacobian]
  exact (OnSuccess.lift (identity_keeps .dm _)).bind fun unit hunit =>
    forwardDerivative_keeps hdm hexpr hunit

theorem reverseDerivative_keeps (hexpr : expr.Keeps P) (hseed : seed.Keeps P) :
    OnSuccess (expr.reverseDerivative arg seed) (Keeps P) := by
  rw [reverseDerivative_eq]
  refine .check_bind fun r hr => .refuse fun _ => .check_bind fun symbols _ => ?_
  have hkinds := combineKinds_eq_ok hr
  refine columns_keeps fun j => ?_
  exact over_reverseColumn (hexpr.over hdm (hkinds _ (by simp)))
    (hseed.over_columnCells hdm (hkinds _ (by simp)) j)

end Operations

end ExprMatrix

end ExplicitOde
