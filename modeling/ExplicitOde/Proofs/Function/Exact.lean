import ExplicitOde.Proofs.Function.Call
import ExplicitOde.Proofs.Matrix.Value

/-!
# Calls in exact arithmetic

Distinct symbols can have any values, so that whatever arguments fit the inputs of a function, there
is an assignment under which the inputs have them. A call in exact arithmetic has the values of the
outputs under that assignment as its result, where these are defined.
-/

namespace ExplicitOde

variable {α β : Type} {rows cols : Nat}

/-! ## Grids of numbers -/

namespace Grid

/-- The entries of a matrix. -/
def ofMatrix (V : Matrix (Fin rows) (Fin cols) β) : Grid β :=
  ⟨rows, cols, (List.ofFn fun j => List.ofFn fun i => V i j).flatten⟩

theorem forall₂_ofMatrix (V : Matrix (Fin rows) (Fin cols) β) :
    List.Forall₂ (fun j c => ∀ hj : j < cols, c = List.ofFn fun i => V i ⟨j, hj⟩) (List.range cols)
      (List.ofFn fun j => List.ofFn fun i => V i j) := by
  refine List.forall₂_iff_get.mpr ⟨by simp, fun j hj hj' _ => ?_⟩
  simp

theorem length_of_mem_ofFn (V : Matrix (Fin rows) (Fin cols) β) :
    ∀ c ∈ List.ofFn fun j => List.ofFn fun i => V i j, c.length = rows := by
  intro c hc
  obtain ⟨j, rfl⟩ := (List.mem_ofFn' _ _).mp hc
  exact List.length_ofFn

theorem full_ofMatrix (V : Matrix (Fin rows) (Fin cols) β) : (ofMatrix V).Full :=
  full_of_columns (forall₂_ofMatrix V) (length_of_mem_ofFn V)

theorem get?_ofMatrix (V : Matrix (Fin rows) (Fin cols) β) (i : Fin rows) (j : Fin cols) :
    (ofMatrix V).get? i j = some (V i j) := by
  obtain ⟨c, hc, hget⟩ := get?_of_columns (forall₂_ofMatrix V) (length_of_mem_ofFn V) i.isLt j.isLt
  rw [ofMatrix, hget, hc j.isLt]
  simp

theorem get?_map {γ : Type} (f : β → γ) (g : Grid β) (i j : Nat) :
    (g.map f).get? i j = (g.get? i j).map f := by
  rw [get?, get?, map]
  split
  · rw [List.getElem?_map]
  · rfl

theorem map_id (g : Grid β) : g.map id = g := by
  rw [map, List.map_id]

theorem Full.map {γ : Type} {g : Grid β} (h : g.Full) (f : β → γ) : (g.map f).Full := by
  rw [Full, Grid.map, List.length_map]
  exact h

/-- Grids are the same if they have the same cells at all positions. -/
theorem ext_of_get? {a b : Grid β} (ha : a.Full) (hb : b.Full) (hshape : a.shape = b.shape)
    (h : ∀ i j, i < a.rows → j < a.cols → a.get? i j = b.get? i j) : a = b := by
  obtain ⟨hrows, hcols⟩ := Prod.mk.inj hshape
  have hcells : a.cells = b.cells := by
    have hlen : a.cells.length = b.cells.length := by rw [ha, hb, hrows, hcols]
    refine List.ext_getElem? fun n => ?_
    by_cases hn : n < a.cells.length
    · obtain ⟨i, j, hi, hj, rfl⟩ := exists_place ha hn
      have hget := h i j hi hj
      rw [get?, get?, if_pos ⟨hi, hj⟩, if_pos ⟨hrows ▸ hi, hcols ▸ hj⟩, ← hrows] at hget
      exact hget
    · rw [List.getElem?_eq_none (Nat.le_of_not_lt hn),
        List.getElem?_eq_none (hlen ▸ Nat.le_of_not_lt hn)]
  cases a
  cases b
  simp_all

end Grid

/-! ## Assignments -/

namespace SymbolicFunction

variable {σ τ : Nat → β} {inputs outputs : List (ExprMatrix α)} {args : List (Grid β)}

/-- An argument has the shape of its input. -/
structure Fits (input : ExprMatrix α) (arg : Grid β) : Prop where
  shape : input.shape = arg.shape
  numel : input.numel = arg.numel

theorem fits_ofMatrix {input : ExprMatrix α} (hshape : input.shape = (rows, cols))
    (hfull : input.grid.Full) (V : Matrix (Fin rows) (Fin cols) β) :
    Fits input (Grid.ofMatrix V) where
  shape := hshape
  numel := by
    obtain ⟨hrows, hcols⟩ := Prod.mk.inj hshape
    exact hfull.trans ((congrArg₂ (· * ·) hrows hcols).trans (Grid.full_ofMatrix V).symm)

theorem Fits.of_grid_eq {a b : ExprMatrix α} {arg : Grid β} (h : Fits a arg)
    (hgrid : a.grid = b.grid) : Fits b arg where
  shape := by rw [← h.shape, ExprMatrix.shape, ExprMatrix.shape, hgrid]
  numel := by rw [← h.numel, ExprMatrix.numel, ExprMatrix.numel, hgrid]

theorem Binds.of_grid_eq {a b : ExprMatrix α} {arg : Grid β} (h : Binds σ a arg)
    (hgrid : a.grid = b.grid) : Binds σ b arg where
  shape := by rw [← h.shape, ExprMatrix.shape, ExprMatrix.shape, hgrid]
  values := by rw [← h.values, ExprMatrix.elements, ExprMatrix.elements, hgrid]

/-- Distinct symbols can have any values. -/
theorem exists_values [Inhabited β] : ∀ {es : List (Expr α)} {vs : List β},
    (es.map Expr.id).Nodup → es.length = vs.length →
    ∃ σ : Nat → β, es.map (fun e => σ e.id) = vs := by
  intro es
  induction es with
  | nil =>
      intro vs _ hlen
      exact ⟨fun _ => default, (List.length_eq_zero_iff.mp hlen.symm).symm⟩
  | cons e es ih =>
      intro vs hdistinct hlen
      cases vs with
      | nil => exact absurd hlen (Nat.succ_ne_zero _)
      | cons v vs =>
          rw [List.map_cons, List.nodup_cons] at hdistinct
          obtain ⟨σ, hσ⟩ := ih hdistinct.2 (Nat.succ.inj hlen)
          refine ⟨Function.update σ e.id v, ?_⟩
          rw [List.map_cons, Function.update_self, ← hσ]
          refine congrArg (v :: ·) (List.map_congr_left fun e' he' => ?_)
          refine Function.update_of_ne (fun hid => hdistinct.1 ?_) v σ
          exact List.mem_map.mpr ⟨e', he', hid⟩

/-- Values of all symbols, one after the other, are values of the inputs. -/
theorem gives_of_values
    (hnumel : List.Forall₂ (fun input arg => input.numel = arg.numel) inputs args)
    (h : (inputElements inputs).map (fun e => σ e.id) = args.flatMap Grid.cells) :
    List.Forall₂ (Gives σ) inputs args := by
  induction hnumel with
  | nil => exact List.Forall₂.nil
  | @cons input arg inputs args hnumel _ ih =>
      rw [inputElements_cons, List.map_append, List.flatMap_cons] at h
      have hlen : (input.elements.map fun e => σ e.id).length = arg.cells.length := by
        rw [List.length_map]
        exact hnumel
      obtain ⟨hone, hrest⟩ := List.append_inj h hlen
      exact List.Forall₂.cons hone (ih hrest)

/-- Distinct symbols can have the values of any arguments of as many values. -/
theorem exists_gives [Inhabited β] (hdistinct : ((inputElements inputs).map Expr.id).Nodup)
    (hnumel : List.Forall₂ (fun input arg => input.numel = arg.numel) inputs args) :
    ∃ σ : Nat → β, List.Forall₂ (Gives σ) inputs args := by
  have hlen : (inputElements inputs).length = (args.flatMap Grid.cells).length := by
    clear hdistinct
    induction hnumel with
    | nil => rfl
    | @cons input arg inputs args hnumel _ ih =>
        rw [inputElements_cons, List.flatMap_cons, List.length_append, List.length_append, ih]
        exact congrArg (· + _) hnumel
  obtain ⟨σ, hσ⟩ := exists_values hdistinct hlen
  exact ⟨σ, gives_of_values hnumel hσ⟩

/-- **Whatever arguments fit distinct symbols, some assignment binds these to them.** -/
theorem exists_binds [Inhabited β] (hdistinct : ((inputElements inputs).map Expr.id).Nodup)
    (hfits : List.Forall₂ Fits inputs args) :
    ∃ σ : Nat → β, List.Forall₂ (Binds σ) inputs args := by
  obtain ⟨σ, hσ⟩ := exists_gives hdistinct (hfits.imp fun _ _ hfit => hfit.numel)
  exact ⟨σ, hσ.mp (fun _ _ hgives hfit => ⟨hfit.shape, hgives⟩) hfits⟩

/-- Assignments that agree on the inputs bind them to the same arguments. -/
theorem binds_congr (h : List.Forall₂ (Binds σ) inputs args)
    (heq : ∀ i ∈ (inputElements inputs).map Expr.id, τ i = σ i) :
    List.Forall₂ (Binds τ) inputs args := by
  induction h with
  | nil => exact List.Forall₂.nil
  | @cons input arg inputs args hbinds _ ih =>
      rw [inputElements_cons, List.map_append] at heq
      refine List.Forall₂.cons ⟨hbinds.shape, ?_⟩
        (ih fun i hi => heq i (List.mem_append_right _ hi))
      rw [← hbinds.values]
      exact List.map_congr_left fun e he =>
        heq e.id (List.mem_append_left _ (List.mem_map_of_mem he))

/-- What a call binds the symbols to is such an assignment. -/
theorem binds_bindings [Inhabited β] {meaning : Interpretation α β}
    (hdistinct : ((inputElements inputs).map Expr.id).Nodup)
    (hfits : List.Forall₂ Fits inputs args) :
    List.Forall₂ (Binds (lookUp meaning (bindings inputs args))) inputs args := by
  obtain ⟨σ, hσ⟩ := exists_binds hdistinct hfits
  exact binds_congr hσ fun i hi =>
    lookUp_bindings hdistinct (hσ.imp fun _ _ hbinds => hbinds.values) hi

/-- Assignments under which inputs have the same arguments agree on their symbols. -/
theorem binds_eq (hσ : List.Forall₂ (Binds σ) inputs args)
    (hτ : List.Forall₂ (Binds τ) inputs args) : ∀ e ∈ inputElements inputs, σ e.id = τ e.id := by
  induction hσ with
  | nil => exact fun e he => absurd he List.not_mem_nil
  | @cons input arg inputs args hbinds _ ih =>
      cases hτ with
      | cons hbinds' hrest =>
          intro e he
          rw [inputElements_cons] at he
          rcases List.mem_append.mp he with he | he
          · exact List.map_inj_left.mp (hbinds.values.trans hbinds'.values.symm) e he
          · exact ih hrest e he

/-- Such assignments agree on the symbols of the outputs. -/
theorem Accepted.outputs_agree (h : Accepted inputs outputs)
    (hσ : List.Forall₂ (Binds σ) inputs args) (hτ : List.Forall₂ (Binds τ) inputs args) :
    ∀ e ∈ outputElements outputs, e.Over fun i => σ i = τ i := by
  intro e he
  refine Expr.over_iff.mpr fun x hreach hsymbol => ?_
  obtain ⟨y, hy, hxy⟩ := List.mem_map.mp (h.closed e he x hreach hsymbol)
  rw [← hxy]
  exact binds_eq hσ hτ y hy

/-! ## Values -/

variable [ExactScalar α] {pool : Pool α}

/-- A matrix of symbols has the values of its argument. -/
theorem Binds.realAt {σ : Nat → ℝ} {input : ExprMatrix α} {V : Matrix (Fin rows) (Fin cols) ℝ}
    (h : Binds σ input (.ofMatrix V)) (hsymbols : ∀ e ∈ input.elements, e.isSymbol = true) :
    input.realAt σ = V := by
  have hgrid : input.grid.map (fun e => σ e.id) = .ofMatrix V := by
    obtain ⟨hrows, hcols⟩ := Prod.mk.inj h.shape
    rw [Grid.map]
    calc _ = (⟨rows, cols, (Grid.ofMatrix V).cells⟩ : Grid ℝ) := by
          rw [← h.values, hrows, hcols]
          rfl
      _ = .ofMatrix V := rfl
  ext i j
  have hget := Grid.get?_ofMatrix V i j
  rw [← hgrid, Grid.get?_map] at hget
  obtain ⟨e, he, hvalue⟩ := Option.map_eq_some_iff.mp hget
  have hsymbol := hsymbols e (Grid.mem_of_get? he)
  cases e with
  | symbol id name => rw [ExprMatrix.realAt, Matrix.of_apply, he, ← hvalue]; rfl
  | const | unary | binary => exact Bool.noConfusion hsymbol

/-- **A call in exact arithmetic has the values of the outputs as its result**, whatever the shapes
of the arguments are. -/
theorem call_exact_of_gives {f : SymbolicFunction α} {σ : Nat → ℝ} {args : List (Grid ℝ)}
    (hpool : ∀ e ∈ outputElements f.outputs, e ∈ pool) (hf : Accepted f.inputs f.outputs)
    (h : List.Forall₂ (Gives σ) f.inputs args) :
    f.call Interpretation.exact (args.map (Grid.map some)) =
      .ok (f.outputs.map fun m => m.grid.map (Expr.exactValue σ)) := by
  refine call_eq hpool hf (List.forall₂_map_right_iff.mpr (h.imp fun input arg hgives => ?_))
  rw [Gives, Grid.map, ← (hgives : _ = arg.cells), List.map_map]
  rfl

theorem call_exact {f : SymbolicFunction α} {σ : Nat → ℝ} {args : List (Grid ℝ)}
    (hpool : ∀ e ∈ outputElements f.outputs, e ∈ pool) (hf : Accepted f.inputs f.outputs)
    (h : List.Forall₂ (Binds σ) f.inputs args) :
    f.call Interpretation.exact (args.map (Grid.map some)) =
      .ok (f.outputs.map fun m => m.grid.map (Expr.exactValue σ)) :=
  call_exact_of_gives hpool hf (h.imp fun _ _ hbinds => hbinds.values)

end SymbolicFunction

namespace Pool.HasMatrix

variable [ExactScalar α] {pool : Pool α} {r : Regularity} {σ : Nat → ℝ} {m : ExprMatrix α}
  {V : Matrix (Fin rows) (Fin cols) ℝ}

/-- What is made of the elements of a matrix, where it is known from their values. -/
theorem map_eq {γ : Type} {f : Expr α → γ} {g : ℝ → γ} (h : pool.HasMatrix r σ m V)
    (hf : ∀ e v, pool.Has r σ e v True → f e = g v) : m.grid.map f = (Grid.ofMatrix V).map g := by
  obtain ⟨hrows, hcols⟩ := Prod.mk.inj h.shape
  refine Grid.ext_of_get? (h.full.map f) ((Grid.full_ofMatrix V).map g) h.shape fun i j hi hj => ?_
  obtain ⟨e, he, hhas⟩ := h.entry ⟨i, hrows ▸ hi⟩ ⟨j, hcols ▸ hj⟩
  rw [Grid.get?_map, Grid.get?_map, he, Option.map_some, hf e _ hhas]
  exact (congrArg (Option.map g) (Grid.get?_ofMatrix V ⟨i, hrows ▸ hi⟩ ⟨j, hcols ▸ hj⟩)).symm

theorem map_real (h : pool.HasMatrix r σ m V) : m.grid.map (Expr.real σ) = .ofMatrix V :=
  (h.map_eq (g := id) fun _ _ hhas => hhas.real).trans (Grid.map_id _)

theorem map_exactValue (h : pool.HasMatrix .smooth σ m V) :
    m.grid.map (Expr.exactValue σ) = (Grid.ofMatrix V).map some :=
  h.map_eq fun _ _ hhas => Expr.exactValue_eq_some_iff.mpr
    ⟨(hhas.within trivial).of_smooth .defined, hhas.real⟩

end Pool.HasMatrix

end ExplicitOde
