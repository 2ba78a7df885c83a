import ExplicitOde.Function.Basic
import ExplicitOde.Proofs.Computation
import ExplicitOde.Proofs.Expr.Symbols

/-!
# What is accepted as a function

A function that `SymbolicFunction.make` accepts has three properties that evaluation and code
generation rest on.

**Inputs are symbols**, and **no symbol is bound twice**, be it in one input or in two.

**Outputs are closed**: every symbol below an output is one of an input.
-/

namespace ExplicitOde

variable {α : Type}

namespace SymbolicFunction

/-- The elements of all inputs. -/
def inputElements (inputs : List (ExprMatrix α)) : List (Expr α) :=
  inputs.flatMap ExprMatrix.elements

theorem inputElements_cons (input : ExprMatrix α) (inputs : List (ExprMatrix α)) :
    inputElements (input :: inputs) = input.elements ++ inputElements inputs :=
  List.flatMap_cons

/-- What holds of all elements of outputs holds of the elements of each. -/
theorem forall_mem_outputElements {P : Expr α → Prop} {outputs : List (ExprMatrix α)} :
    (∀ e ∈ outputElements outputs, P e) ↔ ∀ m ∈ outputs, ∀ e ∈ m.elements, P e := by
  simp only [outputElements, List.mem_flatMap]
  exact ⟨fun h m hm e he => h e ⟨m, hm, he⟩, fun h e ⟨m, hm, he⟩ => h m hm e he⟩

theorem forall_mem_inputElements {P : Expr α → Prop} {inputs : List (ExprMatrix α)} :
    (∀ e ∈ inputElements inputs, P e) ↔ ∀ m ∈ inputs, ∀ e ∈ m.elements, P e :=
  forall_mem_outputElements

/-- The identities of some inputs are among those of more inputs. -/
theorem mem_ids_of_subset {inputs more : List (ExprMatrix α)} (h : ∀ m ∈ inputs, m ∈ more) :
    ∀ i ∈ (inputElements inputs).map Expr.id, i ∈ (inputElements more).map Expr.id := by
  intro i hi
  obtain ⟨e, he, rfl⟩ := List.mem_map.mp hi
  obtain ⟨m, hm, hem⟩ := List.mem_flatMap.mp he
  exact List.mem_map_of_mem (List.mem_flatMap.mpr ⟨m, h m hm, hem⟩)

theorem mem_ids_of_mem {inputs : List (ExprMatrix α)} {m : ExprMatrix α} (h : m ∈ inputs) :
    ∀ i ∈ m.elements.map Expr.id, i ∈ (inputElements inputs).map Expr.id := by
  intro i hi
  obtain ⟨e, he, rfl⟩ := List.mem_map.mp hi
  exact List.mem_map_of_mem (List.mem_flatMap.mpr ⟨m, h, he⟩)

/-- What `make` sees to. -/
structure Accepted (inputs outputs : List (ExprMatrix α)) : Prop where
  symbolic : ∀ e ∈ inputElements inputs, e.isSymbol = true
  /-- No symbol is bound twice. -/
  distinct : ((inputElements inputs).map Expr.id).Nodup
  /-- Every symbol below an output is bound. -/
  closed : ∀ e ∈ outputElements outputs, ∀ x, e.Reaches x → x.isSymbol = true →
    x.id ∈ (inputElements inputs).map Expr.id

/-- Inputs of which all elements are among the inputs, one after the other, are distinct. -/
theorem Accepted.nodup_of_sublist {inputs outputs : List (ExprMatrix α)} {es : List (Expr α)}
    (h : Accepted inputs outputs) (hes : es.Sublist (inputElements inputs)) :
    (es.map Expr.id).Nodup :=
  h.distinct.sublist (hes.map Expr.id)

/-- Inputs that follow each other have no symbol in common. -/
theorem Accepted.ne_of_sublist {inputs outputs : List (ExprMatrix α)} {as bs : List (Expr α)}
    (h : Accepted inputs outputs) (hes : (as ++ bs).Sublist (inputElements inputs)) :
    ∀ a ∈ as, ∀ b ∈ bs, a.id ≠ b.id := by
  have hdistinct := h.nodup_of_sublist hes
  rw [List.map_append, List.nodup_append] at hdistinct
  intro a ha b hb
  exact hdistinct.2.2 a.id (List.mem_map_of_mem ha) b.id (List.mem_map_of_mem hb)

/-- A function that was made of a name, inputs and outputs. -/
structure MadeOf (f : SymbolicFunction α) (name : String) (inputs outputs : List (ExprMatrix α)) :
    Prop where
  name_eq : f.name = name
  inputs_eq : f.inputs = inputs
  outputs_eq : f.outputs = outputs
  accepted : Accepted inputs outputs

/-- A list of symbols is added if none was known and none is there twice. -/
theorem addSymbols_ok {name : String} : ∀ {es : List (Expr α)} {known known' : Std.HashSet Nat},
    addSymbols name known es = .ok known' →
    (es.map Expr.id).Nodup ∧ (∀ i ∈ es.map Expr.id, known.contains i = false) ∧
      ∀ i, known'.contains i = true ↔ known.contains i = true ∨ i ∈ es.map Expr.id := by
  intro es
  induction es with
  | nil =>
      intro known known' h
      rw [addSymbols] at h
      injection h with h
      simp [h]
  | cons e es ih =>
      intro known known' h
      rw [addSymbols] at h
      split at h
      · injection h
      rename_i hnew
      rw [Bool.not_eq_true] at hnew
      obtain ⟨hnodup, hfresh, hknown⟩ := ih h
      -- the identity of the first symbol is known while the others are added
      have hnotin : e.id ∉ es.map Expr.id := by
        intro hmem
        have hcontra := hfresh e.id hmem
        simp at hcontra
      refine ⟨List.nodup_cons.mpr ⟨hnotin, hnodup⟩, ?_, ?_⟩
      · intro i hi
        rcases List.mem_cons.mp hi with rfl | hi
        · exact hnew
        · have hi' := hfresh i hi
          rw [Std.HashSet.contains_insert, Bool.or_eq_false_iff] at hi'
          exact hi'.2
      · intro i
        rw [hknown i, Std.HashSet.contains_insert, Bool.or_eq_true, beq_iff_eq, List.map_cons,
          List.mem_cons, eq_comm (a := e.id)]
        tauto

/-- The inputs are gone through if they consist of symbols that are all different. -/
theorem inputSymbols_ok {name : String} : ∀ {inputs : List (ExprMatrix α)} {index : Nat}
    {known known' : Std.HashSet Nat}, inputSymbols name known index inputs = .ok known' →
    (∀ e ∈ inputElements inputs, e.isSymbol = true) ∧
      ((inputElements inputs).map Expr.id).Nodup ∧
      (∀ i ∈ (inputElements inputs).map Expr.id, known.contains i = false) ∧
      ∀ i, known'.contains i = true ↔
        known.contains i = true ∨ i ∈ (inputElements inputs).map Expr.id := by
  intro inputs
  induction inputs with
  | nil =>
      intro index known known' h
      rw [inputSymbols] at h
      injection h with h
      simp [inputElements, h]
  | cons input inputs ih =>
      intro index known known' h
      rw [inputSymbols] at h
      split at h
      case isFalse => injection h
      rename_i hsymbolic
      split at h
      · injection h
      rename_i mid hmid
      -- what is known after this input is new to none of its symbols and to none before
      obtain ⟨hnodup, hfresh, hmid'⟩ := addSymbols_ok hmid
      obtain ⟨hsymbols, hnodup', hfresh', hknown⟩ := ih h
      rw [inputElements_cons, List.map_append]
      refine ⟨?_, ?_, ?_, ?_⟩
      · intro e he
        rcases List.mem_append.mp he with he | he
        · exact List.all_eq_true.mp hsymbolic e he
        · exact hsymbols e he
      · refine List.nodup_append.mpr ⟨hnodup, hnodup', ?_⟩
        rintro i hi _ hj rfl
        have hnot := hfresh' i hj
        rw [(hmid' i).mpr (Or.inr hi)] at hnot
        exact Bool.noConfusion hnot
      · intro i hi
        rcases List.mem_append.mp hi with hi | hi
        · exact hfresh i hi
        · by_contra hknown'
          rw [Bool.not_eq_false] at hknown'
          have hnot := hfresh' i hi
          rw [(hmid' i).mpr (Or.inl hknown')] at hnot
          exact Bool.noConfusion hnot
      · intro i
        rw [hknown i, hmid' i, List.mem_append, or_assoc]

/-- What is checked when a function is made, and what it is made of. -/
theorem make_cases {name : String} {inputs outputs : List (ExprMatrix α)} {f : SymbolicFunction α}
    (h : make name inputs outputs = .ok f) :
    ∃ kind known,
      ExprMatrix.combineKinds .function ((inputs ++ outputs).map ExprMatrix.kind) = .ok kind ∧
      inputSymbols name ∅ 0 inputs = .ok known ∧
      ((freeSymbols (outputElements outputs)).filter fun e => !known.contains e.id) = [] ∧
      f = ⟨name, kind, inputs, outputs⟩ := by
  rw [make] at h
  cases hkind : ExprMatrix.combineKinds .function ((inputs ++ outputs).map ExprMatrix.kind) with
  | error e =>
      rw [hkind] at h
      injection h
  | ok kind =>
      cases hknown : inputSymbols name ∅ 0 inputs with
      | error e =>
          rw [hkind, hknown] at h
          injection h
      | ok known =>
          rw [hkind, hknown] at h
          dsimp only [bind, Except.bind] at h
          split at h
          case isFalse => injection h
          rename_i hfree
          injection h with h
          exact ⟨kind, known, rfl, rfl, List.isEmpty_iff.mp hfree, h.symm⟩

/-- **What is accepted as a function is closed and binds no symbol twice.** -/
theorem make_ok {pool : Pool α} {name : String} {inputs outputs : List (ExprMatrix α)}
    {f : SymbolicFunction α} (hpool : ∀ e ∈ outputElements outputs, e ∈ pool)
    (h : make name inputs outputs = .ok f) : f.MadeOf name inputs outputs := by
  obtain ⟨kind, known, _, hknown, hfree, rfl⟩ := make_cases h
  obtain ⟨hsymbolic, hdistinct, _, hcontains⟩ := inputSymbols_ok hknown
  refine ⟨rfl, rfl, rfl, hsymbolic, hdistinct, ?_⟩
  intro e he x hreach hsymbol
  by_contra hunbound
  have hfreeX : x ∈ (freeSymbols (outputElements outputs)).filter
      fun e => !known.contains e.id := by
    refine List.mem_filter.mpr ⟨(mem_freeSymbols hpool x).mpr ⟨⟨e, he, hreach⟩, hsymbol⟩, ?_⟩
    rw [Bool.not_eq_true', ← Bool.not_eq_true, hcontains]
    simpa using hunbound
  rw [hfree] at hfreeX
  exact absurd hfreeX List.not_mem_nil

/-! ## What is accepted -/

theorem addSymbols_of_nodup (name : String) : ∀ {es : List (Expr α)} {known : Std.HashSet Nat},
    (es.map Expr.id).Nodup → (∀ i ∈ es.map Expr.id, known.contains i = false) →
    ∃ known', addSymbols name known es = .ok known' := by
  intro es
  induction es with
  | nil => exact fun {known} _ _ => ⟨known, rfl⟩
  | cons e es ih =>
      intro known hnodup hfresh
      rw [List.map_cons, List.nodup_cons] at hnodup
      have hnew : known.contains e.id = false := hfresh e.id List.mem_cons_self
      rw [addSymbols, hnew, if_neg Bool.false_ne_true]
      refine ih hnodup.2 fun i hi => ?_
      have hne : e.id ≠ i := fun h => hnodup.1 (h ▸ hi)
      rw [Std.HashSet.contains_insert, beq_false_of_ne hne, Bool.false_or]
      exact hfresh i (List.mem_cons_of_mem e.id hi)

theorem inputSymbols_of_nodup (name : String) : ∀ {inputs : List (ExprMatrix α)} (index : Nat)
    {known : Std.HashSet Nat}, (∀ e ∈ inputElements inputs, e.isSymbol = true) →
    ((inputElements inputs).map Expr.id).Nodup →
    (∀ i ∈ (inputElements inputs).map Expr.id, known.contains i = false) →
    ∃ known', inputSymbols name known index inputs = .ok known' := by
  intro inputs
  induction inputs with
  | nil => exact fun _ {known} _ _ _ => ⟨known, rfl⟩
  | cons input inputs ih =>
      intro index known hsymbols hnodup hfresh
      rw [inputElements_cons, List.map_append, List.nodup_append] at hnodup
      rw [inputElements_cons] at hsymbols hfresh
      rw [List.map_append] at hfresh
      have hsymbolic : input.isSymbolic = true :=
        List.all_eq_true.mpr fun e he => hsymbols e (List.mem_append_left _ he)
      obtain ⟨mid, hmid⟩ := addSymbols_of_nodup name hnodup.1
        fun i hi => hfresh i (List.mem_append_left _ hi)
      obtain ⟨_, _, hknown⟩ := addSymbols_ok hmid
      rw [inputSymbols, if_pos hsymbolic, hmid]
      refine ih (index + 1) (fun e he => hsymbols e (List.mem_append_right _ he)) hnodup.2.1
        fun i hi => ?_
      -- what is known now was known before or is a symbol of this input
      rw [← Bool.not_eq_true, hknown i]
      rintro (hold | hinput)
      · rw [hfresh i (List.mem_append_right _ hi)] at hold
        exact Bool.noConfusion hold
      · exact hnodup.2.2 i hinput i hi rfl

theorem mem_of_mem_distinctById : ∀ {es : List (Expr α)} {seen : Std.HashSet Nat} {e : Expr α},
    e ∈ distinctById seen es → e ∈ es := by
  intro es
  induction es with
  | nil => exact fun h => h
  | cons y es ih =>
      intro seen e he
      rw [distinctById] at he
      split at he
      · exact List.mem_cons_of_mem y (ih he)
      · rcases List.mem_cons.mp he with rfl | he
        · exact List.mem_cons_self
        · exact List.mem_cons_of_mem y (ih he)

/-- **Whatever can be accepted is accepted.** -/
theorem make_of_accepted {name : String} {inputs outputs : List (ExprMatrix α)} {kind : Kind}
    (hkind : ExprMatrix.combineKinds .function ((inputs ++ outputs).map ExprMatrix.kind) = .ok kind)
    (h : Accepted inputs outputs) :
    make name inputs outputs = .ok ⟨name, kind, inputs, outputs⟩ := by
  have hnew : ∀ i ∈ (inputElements inputs).map Expr.id, (∅ : Std.HashSet Nat).contains i = false :=
    fun i _ => by simp
  obtain ⟨known, hknown⟩ := inputSymbols_of_nodup name 0 h.symbolic h.distinct hnew
  obtain ⟨_, _, _, hcontains⟩ := inputSymbols_ok hknown
  have hover : ∀ e ∈ outputElements outputs, e.Over fun i => known.contains i = true := by
    intro e he
    refine Expr.over_iff.mpr fun x hreach hsymbol => ?_
    exact (hcontains x.id).mpr (Or.inr (h.closed e he x hreach hsymbol))
  -- no symbol of the outputs is left when those of the inputs are taken away
  have hfree :
      (freeSymbols (outputElements outputs)).filter (fun e => !known.contains e.id) = [] := by
    refine List.filter_eq_nil_iff.mpr fun x hx => ?_
    obtain ⟨hlisted, hsymbol⟩ := List.mem_filter.mp (mem_of_mem_distinctById hx)
    have hxover := over_evaluationOrder hover x hlisted
    cases x with
    | symbol id name =>
        have hid : known.contains id = true := hxover
        show ¬(!known.contains id) = true
        rw [hid]
        exact Bool.false_ne_true
    | const | unary | binary => exact absurd hsymbol Bool.false_ne_true
  rw [make, hkind, hknown]
  simp only [bind, Except.bind, hfree, List.isEmpty_nil, if_true]
  rfl

end SymbolicFunction

end ExplicitOde
