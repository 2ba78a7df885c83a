import ExplicitOde.Proofs.Expr.Settled
import ExplicitOde.Proofs.Function.Exact
import ExplicitOde.Scalar.Double

/-!
# Calls have the values of trees

A call fills a table by identity and reads its results off it. Three things are said of the calls
of a function, whatever constants and operations mean.

* **No read misses.** A node is evaluated when its operands have their entries, and at the end every
  element of the outputs has one: `fills_of_mem`.
* **A call has the values of trees.** Each result has the shape of its output, and in each place the
  value of the tree there: `cell?_of_call`.
* **Sharing does not count.** Trees of the same operations have the same value, in the calls of two
  functions as well, however much of them is shared and whatever else the outputs are:
  `cell?_eq_of_sameTree`.
-/

namespace ExplicitOde

variable {α β γ : Type} {meaning : Interpretation α β} {σ symbols : Nat → β}

/-- Trees of the same operations have the same value. -/
theorem Expr.SameTree.value_eq {e e' : Expr α} (h : e.SameTree e') :
    e.value meaning σ = e'.value meaning σ := by
  induction h with
  | const | symbol => rfl
  | unary _ ih => rw [value, value, ih]
  | binary _ _ iha ihb => rw [value, value, iha, ihb]

namespace Grid

/-- The cell at a row and a column of one of several grids. -/
def cell? (gs : List (Grid β)) (index row col : Nat) : Option β :=
  gs[index]?.bind fun g => g.get? row col

theorem cell?_map (f : β → γ) (gs : List (Grid β)) (index row col : Nat) :
    cell? (gs.map (Grid.map f)) index row col = (cell? gs index row col).map f := by
  rw [cell?, cell?, List.getElem?_map]
  cases gs[index]? with
  | none => rfl
  | some g => exact get?_map f g row col

end Grid

/-- The tree at a row and a column of one of several matrices. -/
def ExprMatrix.tree? (ms : List (ExprMatrix α)) (index row col : Nat) : Option (Expr α) :=
  Grid.cell? (ms.map grid) index row col

/-! ## No read misses -/

/-- The table of some roots has the entries that are read from it: those of the operands of a node
when the node is evaluated, and in the end those of the roots. -/
structure Fills (meaning : Interpretation α β) (symbols : Nat → β) (roots : List (Expr α)) :
    Prop where
  operands : ∀ before x after, evaluationOrder roots = before ++ x :: after →
    ∀ a ∈ x.operands, (valueTable meaning symbols before).contains a.id = true
  roots : ∀ e ∈ roots, (valueTable meaning symbols (evaluationOrder roots)).contains e.id = true

theorem Ordered.contains_valueTable {es : List (Expr α)} (h : Ordered es) {e : Expr α}
    (he : e ∈ es) : (valueTable meaning symbols es).contains e.id = true := by
  rw [Std.HashMap.contains_eq_isSome_getElem?, valueTable_eq h e he]
  rfl

/-- **No read misses.** -/
theorem fills_of_mem {pool : Pool α} {roots : List (Expr α)} (h : ∀ e ∈ roots, e ∈ pool) :
    Fills meaning symbols roots where
  operands before x after hcut a ha := by
    have hordered := hcut ▸ ordered_evaluationOrder h
    exact hordered.of_append.contains_valueTable (hordered.operand_before a ha)
  roots e he := (ordered_evaluationOrder h).contains_valueTable
    ((mem_evaluationOrder h e).mpr ⟨e, he, .self e⟩)

/-! ## The values of a call -/

namespace SymbolicFunction

variable {pool pool' : Pool α} {name : String} {inputs outputs : List (ExprMatrix α)}
  {f g : SymbolicFunction α} {args results results' : List (Grid β)}

/-- **In each place of the results is the value of the tree in that place of the outputs.** -/
theorem cell?_of_call (hpool : ∀ e ∈ outputElements f.outputs, e ∈ pool)
    (hf : Accepted f.inputs f.outputs) (hσ : List.Forall₂ (Binds σ) f.inputs args)
    (hcall : f.call meaning args = .ok results) (index row col : Nat) :
    Grid.cell? results index row col =
      (ExprMatrix.tree? f.outputs index row col).map (Expr.value meaning σ) := by
  rw [call_eq hpool hf (hσ.imp fun _ _ hbinds => hbinds.values)] at hcall
  obtain rfl := Except.ok.inj hcall
  rw [ExprMatrix.tree?, ← Grid.cell?_map, List.map_map]
  rfl

/-- **The same tree has the same value in the calls of two functions.** -/
theorem cell?_eq_of_sameTree (hpool : ∀ e ∈ outputElements f.outputs, e ∈ pool)
    (hf : Accepted f.inputs f.outputs) (hcall : f.call meaning args = .ok results)
    (hpool' : ∀ e ∈ outputElements g.outputs, e ∈ pool') (hg : Accepted g.inputs g.outputs)
    (hcall' : g.call meaning args = .ok results') (hinputs : g.inputs = f.inputs)
    (hσ : List.Forall₂ (Binds σ) f.inputs args) {index row col index' row' col' : Nat}
    {e e' : Expr α} (he : ExprMatrix.tree? f.outputs index row col = some e)
    (he' : ExprMatrix.tree? g.outputs index' row' col' = some e') (hsame : e.SameTree e') :
    Grid.cell? results index row col = Grid.cell? results' index' row' col' := by
  have hσ' : List.Forall₂ (Binds σ) g.inputs args := hinputs ▸ hσ
  rw [cell?_of_call hpool hf hσ hcall, cell?_of_call hpool' hg hσ' hcall', he, he',
    Option.map_some, Option.map_some, hsame.value_eq]

/-- **A call of a function that was made has the values of trees.** No read of it misses. Its
arguments bind the symbols of the inputs, place by place, and its results have the shapes and the
values of the outputs. In the call of another function of these inputs, the same tree has the same
value. -/
theorem call_treeValues (hpool : ∀ e ∈ outputElements outputs, e ∈ pool)
    (hf : make name inputs outputs = .ok f) (hargs : List.Forall₂ Fits inputs args)
    (meaning : Interpretation α β) :
    Fills meaning (lookUp meaning (bindings inputs args)) (outputElements outputs) ∧
      (∃ σ, List.Forall₂ (Binds σ) inputs args) ∧
      ∃ results, f.call meaning args = .ok results ∧
        results.map Grid.shape = outputs.map ExprMatrix.shape ∧
        (∀ σ, List.Forall₂ (Binds σ) inputs args → ∀ index row col,
          Grid.cell? results index row col =
            (ExprMatrix.tree? outputs index row col).map (Expr.value meaning σ)) ∧
        ∀ {pool' : Pool α} {name' : String} {outputs' : List (ExprMatrix α)}
          {g : SymbolicFunction α} {results' : List (Grid β)},
          (∀ e ∈ outputElements outputs', e ∈ pool') → make name' inputs outputs' = .ok g →
          g.call meaning args = .ok results' →
          ∀ {index row col index' row' col' : Nat} {e e' : Expr α},
            ExprMatrix.tree? outputs index row col = some e →
            ExprMatrix.tree? outputs' index' row' col' = some e' → e.SameTree e' →
            Grid.cell? results index row col = Grid.cell? results' index' row' col' := by
  obtain ⟨_, rfl, rfl, haccepted⟩ := make_ok hpool hf
  have : Inhabited β := ⟨meaning.unbound⟩
  obtain ⟨σ, hσ⟩ := exists_binds haccepted.distinct hargs
  have hcall : f.call meaning args = .ok _ :=
    call_eq hpool haccepted (hσ.imp fun _ _ hbinds => hbinds.values)
  refine ⟨fills_of_mem hpool, ⟨σ, hσ⟩, _, hcall, ?_, ?_, ?_⟩
  · rw [List.map_map]
    rfl
  · exact fun τ hτ => cell?_of_call hpool haccepted hτ hcall
  · intro pool' name' outputs' g results' hpool' hg hcall'
    obtain ⟨_, hinputs, rfl, haccepted'⟩ := make_ok hpool' hg
    exact cell?_eq_of_sameTree hpool haccepted hcall hpool' (hinputs ▸ haccepted') hcall' hinputs hσ

/-! The square of a sine, with one node for both factors and with two. -/

/-- The square with a node for each factor. -/
def unsharedSquare : Expr Float :=
  .binary 3 .mul (.unary 1 .sin (.symbol 0 "x")) (.unary 2 .sin (.symbol 0 "x"))

/-- These are all its nodes. -/
def unsharedNodes : Pool Float :=
  ((((Pool.empty 0).growSymbol "x").grow (.unary 1 .sin (.symbol 0 "x")) rfl
    (List.forall_mem_singleton.mpr (Pool.mem_grow _ _))).grow (.unary 2 .sin (.symbol 0 "x")) rfl
    (List.forall_mem_singleton.mpr (Pool.mem_of_le (Pool.le_grow _ _) (Pool.mem_grow _ _)))).grow
    unsharedSquare rfl
    (List.forall_mem_cons.mpr ⟨Pool.mem_of_le (Pool.le_grow _ _) (Pool.mem_grow _ _),
      List.forall_mem_singleton.mpr (Pool.mem_grow _ _)⟩)

theorem unsharedSquare_mem : unsharedSquare ∈ unsharedNodes := Pool.mem_grow _ _

/-- The input of the functions. -/
def sineInputs : List (ExprMatrix Float) := [.column .sx [.symbol 0 "x"]]

theorem accepted_sineInputs {outputs : List (ExprMatrix Float)}
    (h : ∀ e ∈ outputElements outputs, e.Over fun i => i = 0) : Accepted sineInputs outputs where
  symbolic := by decide
  distinct := by decide
  closed e he x hreach hsymbol := by
    rw [Expr.over_iff.mp (h e he) x hreach hsymbol]
    exact List.mem_cons_self

/-- Of one function the square is the only output, of another the second of two. -/
theorem call_treeValues_square :
    ∃ (f g : SymbolicFunction Float) (results results' : List (Grid Float)),
      make "f" sineInputs [.column .sx [sharedSquare]] = .ok f ∧
        make "g" sineInputs [.column .sx [.symbol 0 "x"], .column .sx [unsharedSquare]] = .ok g ∧
        f.call Interpretation.double [.column [2.0]] = .ok results ∧
        g.call Interpretation.double [.column [2.0]] = .ok results' ∧
        Grid.cell? results 0 0 0 = some ((2.0 : Float).sin * (2.0 : Float).sin) ∧
        Grid.cell? results 0 0 0 = Grid.cell? results' 1 0 0 := by
  have hshared : ∀ e ∈ outputElements [.column .sx [sharedSquare]],
      e ∈ (sharedNodes : Pool Float) :=
    List.forall_mem_singleton.mpr sharedSquare_mem
  have hunshared : ∀ e ∈ outputElements [.column .sx [.symbol 0 "x"], .column .sx [unsharedSquare]],
      e ∈ unsharedNodes := by
    refine List.forall_mem_cons.mpr ⟨?_, List.forall_mem_singleton.mpr unsharedSquare_mem⟩
    exact Pool.mem_of_reaches unsharedSquare_mem
      (.through List.mem_cons_self (.through List.mem_cons_self (.self _)))
  have hf : make "f" sineInputs [.column .sx [sharedSquare]] = .ok ⟨"f", .sx, _, _⟩ :=
    make_of_accepted rfl (accepted_sineInputs (List.forall_mem_singleton.mpr ⟨rfl, rfl⟩))
  have hg : make "g" sineInputs [.column .sx [.symbol 0 "x"], .column .sx [unsharedSquare]] =
      .ok ⟨"g", .sx, _, _⟩ :=
    make_of_accepted rfl (accepted_sineInputs
      (List.forall_mem_cons.mpr ⟨rfl, List.forall_mem_singleton.mpr ⟨rfl, rfl⟩⟩))
  have hargs : List.Forall₂ Fits sineInputs [Grid.column [(2.0 : Float)]] := .cons ⟨rfl, rfl⟩ .nil
  have hσ : List.Forall₂ (Binds fun _ => (2.0 : Float)) sineInputs [.column [2.0]] :=
    .cons ⟨rfl, rfl⟩ .nil
  obtain ⟨_, _, results, hcall, _, hvalue, hsame⟩ :=
    call_treeValues hshared hf hargs Interpretation.double
  obtain ⟨_, _, results', hcall', _⟩ := call_treeValues hunshared hg hargs Interpretation.double
  refine ⟨_, _, results, results', hf, hg, hcall, hcall', hvalue _ hσ 0 0 0, ?_⟩
  exact hsame hunshared hg hcall' rfl rfl (.binary (.unary .symbol) (.unary .symbol))

end SymbolicFunction

end ExplicitOde
