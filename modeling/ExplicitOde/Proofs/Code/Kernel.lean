import ExplicitOde.Code.Kernel
import ExplicitOde.Proofs.Function.Make

/-!
# What is in a kernel

A kernel has one slot for every node below the outputs that is no constant. What is assigned to it
is the operation of the node, on slots that were assigned before and on constants: `Covers` says so
of a kernel while it is made.

Whatever function is accepted has a kernel.
-/

namespace ExplicitOde

namespace Kernel

variable {α : Type}

/-- The operand stands for a node, where slots stand for these nodes. -/
inductive Stands (nodes : List (Expr α)) : Operand α → Expr α → Prop where
  | number {id : Nat} {v : α} : Stands nodes (.number v) (.const id v)
  | slot {index : Nat} {e : Expr α} (h : nodes[index]? = some e) : Stands nodes (.slot index) e

/-- What is assigned to a slot is the operation of a node, on slots that stand for the nodes
before. -/
inductive Computes (symbols : Std.HashMap Nat (Nat × Nat)) (before : List (Expr α)) :
    SlotValue α → Expr α → Prop where
  | argument {id : Nat} {name : String} {input element : Nat}
      (h : symbols[id]? = some (input, element)) :
      Computes symbols before (.argument input element) (.symbol id name)
  | unary {id : Nat} {op : UnaryOp} {a : Operand α} {x : Expr α} (h : Stands before a x) :
      Computes symbols before (.unary op a) (.unary id op x)
  | binary {id : Nat} {op : BinaryOp} {a b : Operand α} {x y : Expr α} (ha : Stands before a x)
      (hb : Stands before b y) : Computes symbols before (.binary op a b) (.binary id op x y)

theorem Stands.append {nodes more : List (Expr α)} {op : Operand α} {e : Expr α}
    (h : Stands nodes op e) : Stands (nodes ++ more) op e := by
  cases h with
  | number => exact .number
  | @slot index _ h =>
      refine .slot ?_
      rw [List.getElem?_append_left (List.getElem?_eq_some_iff.mp h).1]
      exact h

/-- A kernel while it is made: every node seen so far has an operand that stands for it, and every
slot computes its node from slots before it. -/
structure Covers (symbols : Std.HashMap Nat (Nat × Nat)) (es nodes : List (Expr α))
    (draft : Draft α) : Prop where
  operands : ∀ e ∈ es, ∃ op, draft.operands[e.id]? = some op ∧ Stands nodes op e
  mem : ∀ e ∈ nodes, e ∈ es
  size : draft.slots.size = nodes.length
  slots : ∀ k value, draft.slots.toList[k]? = some value →
    ∃ e, nodes[k]? = some e ∧ Computes symbols (nodes.take k) value e

variable {symbols : Std.HashMap Nat (Nat × Nat)} {es nodes : List (Expr α)} {draft : Draft α}

theorem Covers.operand (h : Covers symbols es nodes draft) {e : Expr α} (he : e ∈ es) :
    Stands nodes (draft.operand e) e := by
  obtain ⟨op, hop, hstands⟩ := h.operands e he
  rw [Draft.operand, Std.HashMap.getD_eq_getD_getElem?, hop]
  exact hstands

theorem covers_nil : Covers symbols [] [] (⟨∅, #[]⟩ : Draft α) where
  operands e he := absurd he List.not_mem_nil
  mem e he := he
  size := rfl
  slots k value h := absurd h (by simp)

/-- One more slot covers one more node. -/
theorem Covers.assign (h : Covers symbols es nodes draft) {e : Expr α}
    (hnew : ∀ x ∈ es, x.id ≠ e.id) {value : SlotValue α}
    (hvalue : Computes symbols nodes value e) :
    Covers symbols (es ++ [e]) (nodes ++ [e]) (draft.assign e.id value) where
  operands x hx := by
    rw [Draft.assign, Std.HashMap.getElem?_insert]
    rcases List.mem_append.mp hx with hx | hx
    · rw [if_neg (by simpa using (hnew x hx).symm)]
      obtain ⟨op, hop, hstands⟩ := h.operands x hx
      exact ⟨op, hop, hstands.append⟩
    · rw [List.mem_singleton.mp hx, if_pos BEq.rfl]
      refine ⟨_, rfl, .slot ?_⟩
      rw [h.size, List.getElem?_concat_length]
  mem x hx := by
    rcases List.mem_append.mp hx with hx | hx
    · exact List.mem_append_left [e] (h.mem x hx)
    · exact List.mem_append_right es hx
  size := by
    rw [Draft.assign, Array.size_push, h.size, List.length_append]
    rfl
  slots k v hk := by
    have hsize : draft.slots.toList.length = nodes.length := h.size
    rw [Draft.assign, Array.toList_push] at hk
    -- slots that were there stay as they are, and the one that is added is the last
    by_cases hlt : k < nodes.length
    · rw [List.getElem?_append_left (hsize ▸ hlt)] at hk
      obtain ⟨x, hx, hcomputes⟩ := h.slots k v hk
      refine ⟨x, by rw [List.getElem?_append_left hlt, hx], ?_⟩
      rw [List.take_append_of_le_length (Nat.le_of_lt hlt)]
      exact hcomputes
    · have hkeq : k = nodes.length := by
        have hbound := (List.getElem?_eq_some_iff.mp hk).1
        rw [List.length_append, hsize, List.length_singleton] at hbound
        omega
      subst hkeq
      rw [← hsize, List.getElem?_concat_length] at hk
      injection hk with hk
      refine ⟨e, List.getElem?_concat_length, ?_⟩
      rw [List.take_left' rfl, ← hk]
      exact hvalue

/-- **Adding a node whose operands were added covers it.** -/
theorem Covers.add (h : Covers symbols es nodes draft) {e : Expr α}
    (hops : ∀ a ∈ e.operands, a ∈ es) (hnew : ∀ x ∈ es, x.id ≠ e.id)
    (hsymbol : e.isSymbol = true → e.id ∈ symbols) (name : String) :
    ∃ draft' nodes', Draft.add name symbols draft e = .ok draft' ∧
      Covers symbols (es ++ [e]) nodes' draft' := by
  cases e with
  | const id v =>
      -- a constant has no slot: it is written out wherever it is an operand
      refine ⟨_, nodes, rfl, ?_, fun x hx => List.mem_append_left _ (h.mem x hx), h.size, h.slots⟩
      have hnew' : ∀ x ∈ es, x.id ≠ id := hnew
      intro x hx
      rw [Std.HashMap.getElem?_insert]
      rcases List.mem_append.mp hx with hx | hx
      · rw [if_neg (by simpa using (hnew' x hx).symm)]
        exact h.operands x hx
      · rw [List.mem_singleton.mp hx]
        exact ⟨_, if_pos BEq.rfl, .number⟩
  | symbol id text =>
      have hmem : id ∈ symbols := hsymbol rfl
      obtain ⟨place, hplace⟩ : ∃ place, symbols[id]? = some place :=
        ⟨_, Std.HashMap.getElem?_eq_some_getElem hmem⟩
      refine ⟨_, _, ?_, h.assign hnew (.argument hplace)⟩
      rw [Draft.add, hplace]
      rfl
  | unary id op a =>
      exact ⟨_, _, rfl, h.assign hnew (.unary (h.operand (hops a List.mem_cons_self)))⟩
  | binary id op a b =>
      exact ⟨_, _, rfl, h.assign hnew (.binary (h.operand (hops a List.mem_cons_self))
        (h.operand (hops b (List.mem_cons_of_mem a List.mem_cons_self))))⟩

/-- All nodes of an evaluation order are covered, if their symbols have places. -/
theorem exists_covers (hord : Ordered es) (hsymbols : ∀ e ∈ es, e.isSymbol = true → e.id ∈ symbols)
    (name : String) : ∃ draft nodes, es.foldlM (Draft.add name symbols) ⟨∅, #[]⟩ = .ok draft ∧
      Covers symbols es nodes draft := by
  induction hord with
  | nil => exact ⟨_, [], rfl, covers_nil⟩
  | @snoc es e _ hops hnew ih =>
      obtain ⟨draft, nodes, hrun, hcovers⟩ :=
        ih fun x hx => hsymbols x (List.mem_append_left [e] hx)
      obtain ⟨draft', nodes', hadd, hcovers'⟩ := hcovers.add hops hnew
        (hsymbols e (List.mem_append_right es List.mem_cons_self)) name
      refine ⟨draft', nodes', ?_, hcovers'⟩
      rw [List.foldlM_append, hrun]
      show (Draft.add name symbols draft e >>= fun d => pure d) = .ok draft'
      rw [hadd]
      rfl

/-! ## The places of symbols -/

/-- The places of the elements of an input that consists of symbols. -/
theorem inputPlaces_eq {input : ExprMatrix α} (h : ∀ e ∈ input.elements, e.isSymbol = true)
    (index : Nat) :
    inputPlaces index input = input.elements.zipIdx.map fun (e, k) => (e.id, index, k) := by
  rw [inputPlaces, ← List.filterMap_eq_map]
  refine List.filterMap_congr fun p hp => ?_
  obtain ⟨e, k⟩ := p
  have hsymbol := h e (List.fst_mem_of_mem_zipIdx hp)
  cases e with
  | symbol => rfl
  | const | unary | binary => exact Bool.noConfusion hsymbol

open SymbolicFunction

/-- The places of all inputs are of all their elements, one after the other. -/
theorem ids_of_places {inputs : List (ExprMatrix α)}
    (h : ∀ e ∈ inputElements inputs, e.isSymbol = true) (n : Nat) :
    ((inputs.zipIdx n).flatMap fun (input, i) => inputPlaces i input).map Prod.fst =
      (inputElements inputs).map Expr.id := by
  induction inputs generalizing n with
  | nil => rfl
  | cons input inputs ih =>
      rw [inputElements_cons] at h
      have hinput : ∀ e ∈ input.elements, e.isSymbol = true :=
        fun e he => h e (List.mem_append_left _ he)
      have hone : (inputPlaces n input).map Prod.fst = input.elements.map Expr.id := by
        rw [inputPlaces_eq hinput, List.map_map]
        conv => rhs; rw [← List.zipIdx_map_fst 0 input.elements, List.map_map]
        rfl
      rw [List.zipIdx_cons, List.flatMap_cons, List.map_append, inputElements_cons, List.map_append,
        ih fun e he => h e (List.mem_append_right _ he)]
      exact congrArg (· ++ _) hone

/-- **Every element of an input is found at its place.** -/
theorem getElem?_places {inputs outputs : List (ExprMatrix α)} (h : Accepted inputs outputs)
    {i k : Nat} {input : ExprMatrix α} {e : Expr α} (hi : inputs[i]? = some input)
    (hk : input.elements[k]? = some e) : (places inputs)[e.id]? = some (i, k) := by
  have hinput : ∀ e ∈ input.elements, e.isSymbol = true :=
    forall_mem_inputElements.mp h.symbolic input (List.mem_of_getElem? hi)
  rw [places]
  refine Std.HashMap.getElem?_ofList_of_mem BEq.rfl ?_ ?_
  · have hdistinct := h.distinct
    rw [← ids_of_places h.symbolic 0, List.nodup_iff_pairwise_ne, List.pairwise_map] at hdistinct
    exact hdistinct.imp fun hne => beq_false_of_ne hne
  · refine List.mem_flatMap.mpr ⟨(input, i), List.mk_mem_zipIdx_iff_getElem?.mpr hi, ?_⟩
    show (e.id, i, k) ∈ inputPlaces i input
    rw [inputPlaces_eq hinput]
    exact List.mem_map.mpr ⟨(e, k), List.mk_mem_zipIdx_iff_getElem?.mpr hk, rfl⟩

/-! ## Kernels of functions -/

/-- A kernel of a function: the nodes for which there are slots, and what the slots and the results
stand for. -/
structure KernelOf (f : SymbolicFunction α) (nodes : List (Expr α)) (kernel : Kernel α) : Prop where
  size : kernel.slots.length = nodes.length
  slots : ∀ k value, kernel.slots[k]? = some value →
    ∃ e, nodes[k]? = some e ∧ Computes (places f.inputs) (nodes.take k) value e
  results : List.Forall₂ (fun operands m => List.Forall₂ (Stands nodes) operands m.elements)
    kernel.results f.outputs
  /-- Every slot is of a node below the outputs. -/
  below : ∀ e ∈ nodes, ∃ root ∈ outputElements f.outputs, root.Reaches e

variable {f : SymbolicFunction α}

/-- Every symbol of the inputs has the place of an element. -/
theorem exists_place (hf : Accepted f.inputs f.outputs) {id : Nat}
    (hid : id ∈ (inputElements f.inputs).map Expr.id) :
    ∃ (i k : Nat) (input : ExprMatrix α) (x : Expr α), f.inputs[i]? = some input ∧
      input.elements[k]? = some x ∧ x.id = id ∧ (places f.inputs)[id]? = some (i, k) := by
  obtain ⟨x, hx, rfl⟩ := List.mem_map.mp hid
  obtain ⟨input, hinput, hx⟩ := List.mem_flatMap.mp hx
  obtain ⟨i, hi⟩ := List.getElem?_of_mem hinput
  obtain ⟨k, hk⟩ := List.getElem?_of_mem hx
  exact ⟨i, k, input, x, hi, hk, rfl, getElem?_places hf hi hk⟩

/-- A kernel reads elements of inputs only. -/
theorem KernelOf.argument {nodes : List (Expr α)} {kernel : Kernel α} (h : KernelOf f nodes kernel)
    (hf : Accepted f.inputs f.outputs) {i k : Nat} (hslot : .argument i k ∈ kernel.slots) :
    ∃ input, f.inputs[i]? = some input ∧ k < input.elements.length := by
  obtain ⟨n, hn⟩ := List.getElem?_of_mem hslot
  obtain ⟨e, he, hcomputes⟩ := h.slots n _ hn
  obtain ⟨root, hroot, hreach⟩ := h.below e (List.mem_of_getElem? he)
  cases hcomputes with
  | argument hplace =>
      obtain ⟨j, l, input, x, hj, hl, _, hplace'⟩ :=
        exists_place hf (hf.closed root hroot _ hreach rfl)
      obtain ⟨rfl, rfl⟩ := Prod.mk.inj (Option.some.inj (hplace'.symm.trans hplace))
      exact ⟨input, hj, (List.getElem?_eq_some_iff.mp hl).1⟩

/-- Every symbol in the evaluation order of an accepted function is an element of an input. -/
theorem exists_element (hf : Accepted f.inputs f.outputs) {e : Expr α}
    (he : e ∈ evaluationOrder (outputElements f.outputs)) (hsymbol : e.isSymbol = true) :
    ∃ (i k : Nat) (input : ExprMatrix α) (x : Expr α),
      f.inputs[i]? = some input ∧ input.elements[k]? = some x ∧ x.id = e.id := by
  have hclosed : ∀ root ∈ outputElements f.outputs,
      root.Over (· ∈ (inputElements f.inputs).map Expr.id) :=
    fun root hroot => Expr.over_iff.mpr (hf.closed root hroot)
  have hid := Expr.over_iff.mp (over_evaluationOrder hclosed e he) e (.self e) hsymbol
  obtain ⟨i, k, input, x, hi, hk, hid, _⟩ := exists_place hf hid
  exact ⟨i, k, input, x, hi, hk, hid⟩

/-- Every symbol in the evaluation order of an accepted function has a place. -/
theorem mem_places (hf : Accepted f.inputs f.outputs) :
    ∀ e ∈ evaluationOrder (outputElements f.outputs), e.isSymbol = true →
    e.id ∈ places f.inputs := by
  intro e he hsymbol
  obtain ⟨i, k, input, x, hi, hk, hid⟩ := exists_element hf he hsymbol
  have hplace := getElem?_places hf hi hk
  rw [hid] at hplace
  rw [← Std.HashMap.isSome_getElem?_iff_mem, hplace]
  rfl

/-- A node is added unless it is a symbol without a place. -/
theorem Draft.exists_add (name : String) (draft : Draft α) {e : Expr α}
    (h : e.isSymbol = true → e.id ∈ symbols) :
    ∃ draft', Draft.add name symbols draft e = .ok draft' := by
  cases e with
  | symbol id text =>
      have hmem : id ∈ symbols := h rfl
      rw [Draft.add, Std.HashMap.getElem?_eq_some_getElem hmem]
      exact ⟨_, rfl⟩
  | const | unary | binary => exact ⟨_, rfl⟩

/-- **An accepted function has a kernel.** -/
theorem exists_ofFunction (hf : Accepted f.inputs f.outputs) :
    ∃ kernel, ofFunction f = .ok kernel := by
  have hfold : ∀ (es : List (Expr α)) (draft : Draft α),
      (∀ e ∈ es, e.isSymbol = true → e.id ∈ places f.inputs) →
      ∃ draft', es.foldlM (Draft.add f.name (places f.inputs)) draft = .ok draft' := by
    intro es
    induction es with
    | nil => exact fun draft _ => ⟨draft, rfl⟩
    | cons e es ih =>
        intro draft hes
        obtain ⟨mid, hmid⟩ := Draft.exists_add f.name draft (hes e List.mem_cons_self)
        obtain ⟨last, hlast⟩ := ih mid fun x hx => hes x (List.mem_cons_of_mem e hx)
        refine ⟨last, ?_⟩
        rw [List.foldlM_cons, hmid]
        exact hlast
  obtain ⟨draft, hdraft⟩ := hfold _ ⟨∅, #[]⟩ (mem_places hf)
  rw [ofFunction, hdraft]
  exact ⟨_, rfl⟩

/-- Where nodes exist once, the slots and the results of the kernel stand for nodes. -/
theorem exists_kernelOf {pool : Pool α} (hpool : ∀ e ∈ outputElements f.outputs, e ∈ pool)
    (hf : Accepted f.inputs f.outputs) :
    ∃ kernel nodes, ofFunction f = .ok kernel ∧ KernelOf f nodes kernel := by
  obtain ⟨draft, nodes, hrun, hcovers⟩ :=
    exists_covers (ordered_evaluationOrder hpool) (mem_places hf) f.name
  refine ⟨⟨draft.slots.toList, f.outputs.map fun m => m.elements.map draft.operand⟩, nodes, ?_, ?_⟩
  · rw [ofFunction]
    show (List.foldlM (Draft.add f.name (places f.inputs)) ⟨∅, #[]⟩ _ >>= fun draft => pure _) = _
    rw [hrun]
    rfl
  · refine ⟨hcovers.size, hcovers.slots, ?_, fun e he => ?_⟩
    · refine List.forall₂_map_left_iff.mpr (List.forall₂_same.mpr fun m hm => ?_)
      refine List.forall₂_map_left_iff.mpr (List.forall₂_same.mpr fun e he => ?_)
      exact hcovers.operand ((mem_evaluationOrder hpool e).mpr
        ⟨e, List.mem_flatMap.mpr ⟨m, hm, he⟩, .self e⟩)
    · exact (mem_evaluationOrder hpool e).mp (hcovers.mem e he)

end Kernel

end ExplicitOde
