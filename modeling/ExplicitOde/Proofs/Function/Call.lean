import ExplicitOde.Function.Call
import ExplicitOde.Proofs.Expr.Symbols
import ExplicitOde.Proofs.Function.Make

/-!
# A call evaluates the outputs as trees

A call evaluates every node once, in evaluation order, and looks up what it needs. For a function
that was accepted this comes to the same as evaluating every element of the outputs as a tree, where
each symbol of an input has the value at its place in the argument, whatever constants and
operations mean.
-/

namespace ExplicitOde

variable {α β : Type} {meaning : Interpretation α β} {symbols : Nat → β}

theorem lookUp_eq {table : Std.HashMap Nat β} {id : Nat} {v : β} (h : table[id]? = some v) :
    lookUp meaning table id = v := by
  rw [lookUp, Std.HashMap.getD_eq_getD_getElem?, h, Option.getD_some]

/-- Where the operands have their values, a node has its value. -/
theorem Expr.rootValue_eq {known : Nat → β} {e : Expr α}
    (h : ∀ a ∈ e.operands, known a.id = a.value meaning symbols) :
    e.rootValue meaning symbols known = e.value meaning symbols := by
  cases e with
  | const | symbol => rfl
  | unary id op a => rw [rootValue, value, h a (by simp [operands])]
  | binary id op a b =>
      rw [rootValue, value, h a (by simp [operands]), h b (by simp [operands])]

/-- **The table has the value of every node of the order.** -/
theorem valueTable_eq {es : List (Expr α)} (hord : Ordered es) :
    ∀ e ∈ es, (valueTable meaning symbols es)[e.id]? = some (e.value meaning symbols) := by
  induction hord with
  | nil => exact fun e he => absurd he List.not_mem_nil
  | @snoc es e _ hops hnew ih =>
      intro x hx
      rw [valueTable, List.foldl_append, List.foldl_cons, List.foldl_nil,
        Std.HashMap.getElem?_insert]
      rcases List.mem_append.mp hx with hx | hx
      · rw [if_neg (by simpa using (hnew x hx).symm)]
        exact ih x hx
      · rw [List.mem_singleton.mp hx, if_pos BEq.rfl]
        exact congrArg some (Expr.rootValue_eq fun a ha => lookUp_eq (ih a (hops a ha)))

namespace SymbolicFunction

/-- Under `σ` the symbols of an input have the values of an argument, one after the other. -/
def Gives (σ : Nat → β) (input : ExprMatrix α) (arg : Grid β) : Prop :=
  input.elements.map (fun e => σ e.id) = arg.cells

/-- Under `σ` the symbols of an input have the values of an argument of its shape. -/
structure Binds (σ : Nat → β) (input : ExprMatrix α) (arg : Grid β) : Prop where
  shape : input.shape = arg.shape
  values : input.elements.map (fun e => σ e.id) = arg.cells

variable {σ : Nat → β} {inputs outputs : List (ExprMatrix α)} {args : List (Grid β)}

/-- As many values as elements are enough for an argument. -/
theorem checkArguments_ok {name : String} {index : Nat}
    (h : List.Forall₂ (Gives σ) inputs args) : checkArguments name index inputs args = .ok () := by
  induction h generalizing index with
  | nil => rfl
  | @cons input arg _ _ hgives _ ih =>
      have hnumel : input.numel = arg.numel :=
        (List.length_map _).symm.trans (congrArg List.length hgives)
      rw [checkArguments, if_neg fun hbad => hbad.2 hnumel]
      exact ih

/-- Pairs of elements and their images. -/
theorem map_zip_map {γ δ : Type} (f : γ → β) (g : γ → β → δ) (cs : List γ) :
    (cs.zip (cs.map f)).map (fun p => g p.1 p.2) = cs.map fun c => g c (f c) := by
  induction cs with
  | nil => rfl
  | cons c cs ih =>
      rw [List.map_cons, List.zip_cons_cons, List.map_cons, ih, List.map_cons]

/-- What the symbols of all inputs are bound to. -/
theorem bindings_eq (h : List.Forall₂ (Gives σ) inputs args) :
    bindings inputs args =
      Std.HashMap.ofList ((inputElements inputs).map fun e => (e.id, σ e.id)) := by
  rw [bindings]
  congr 1
  induction h with
  | nil => rfl
  | @cons input arg inputs args hgives _ ih =>
      have hone : (input.elements.zip arg.cells).map (fun p => (p.1.id, p.2)) =
          input.elements.map fun e => (e.id, σ e.id) := by
        rw [← (hgives : _ = arg.cells)]
        exact map_zip_map (fun e => σ e.id) (fun e v => (e.id, v)) input.elements
      rw [List.zip_cons_cons, List.flatMap_cons, ih, inputElements_cons, List.map_append]
      exact congrArg (· ++ _) hone

/-- **Each symbol of an input has the value at its place.** -/
theorem lookUp_bindings (hdistinct : ((inputElements inputs).map Expr.id).Nodup)
    (h : List.Forall₂ (Gives σ) inputs args) {i : Nat}
    (hi : i ∈ (inputElements inputs).map Expr.id) :
    lookUp meaning (bindings inputs args) i = σ i := by
  obtain ⟨e, he, rfl⟩ := List.mem_map.mp hi
  rw [bindings_eq h]
  refine lookUp_eq (Std.HashMap.getElem?_ofList_of_mem BEq.rfl ?_ ?_)
  · rw [List.nodup_iff_pairwise_ne, List.pairwise_map] at hdistinct
    rw [List.pairwise_map]
    exact hdistinct.imp fun hne => beq_false_of_ne hne
  · exact List.mem_map.mpr ⟨e, he, rfl⟩

/-- **A call of an accepted function evaluates its outputs as trees.** -/
theorem call_eq {pool : Pool α} {f : SymbolicFunction α}
    (hpool : ∀ e ∈ outputElements f.outputs, e ∈ pool) (hf : Accepted f.inputs f.outputs)
    (h : List.Forall₂ (Gives σ) f.inputs args) :
    f.call meaning args =
      .ok (f.outputs.map fun m => m.grid.map fun e => e.value meaning σ) := by
  have hentry : ∀ e ∈ outputElements f.outputs, lookUp meaning
      (valueTable meaning (lookUp meaning (bindings f.inputs args))
        (evaluationOrder (outputElements f.outputs))) e.id = e.value meaning σ := by
    intro e he
    have hlisted := (mem_evaluationOrder hpool e).mpr ⟨e, he, .self e⟩
    rw [lookUp_eq (valueTable_eq (ordered_evaluationOrder hpool) e hlisted)]
    refine Expr.value_congr (Expr.over_iff.mpr fun x hreach hsymbol => ?_)
    exact lookUp_bindings hf.distinct h (hf.closed e he x hreach hsymbol)
  have hcount : args.length = f.inputs.length := h.length_eq.symm
  rw [call, if_neg (not_not.mpr hcount), checkArguments_ok h]
  refine congrArg Except.ok (List.map_congr_left fun m hm => ?_)
  rw [Grid.map, Grid.map]
  congr 1
  refine List.map_congr_left fun e he => hentry e ?_
  exact List.mem_flatMap.mpr ⟨m, hm, he⟩

end SymbolicFunction

end ExplicitOde
