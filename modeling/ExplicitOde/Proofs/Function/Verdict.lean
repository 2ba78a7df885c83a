import ExplicitOde.Code.Source
import ExplicitOde.Proofs.Code.Kernel
import ExplicitOde.Proofs.Expr.Leaves
import ExplicitOde.Proofs.Function.Values
import ExplicitOde.Proofs.Matrix.Kind

/-!
# What becomes of a name, inputs and outputs

They are a function if the kinds do not mix, the inputs bind symbols, none of them twice, and the
outputs depend on no other symbols. Otherwise they are refused, and **the first of the rules that is
broken tells how**: kinds come first, then the inputs one after the other, and of an input first
whether it consists of symbols; the symbols that are missing come last, all of them, in the order in
which they appear in the outputs. `Verdict` has a case for each, and `make_iff_verdict` says that
there is no other.

**A function has all that it ever asks for** (`Complete`): a call binds every symbol that it
evaluates and finds the value of every operand, and no symbol is missing when code is generated.
-/

namespace ExplicitOde

variable {α : Type}

namespace SymbolicFunction

variable {name : String} {inputs outputs before after : List (ExprMatrix α)}

/-! ## Inputs -/

/-- The inputs consist of symbols, and none of them is there twice. -/
structure Bindable (inputs : List (ExprMatrix α)) : Prop where
  symbolic : ∀ e ∈ inputElements inputs, e.isSymbol = true
  distinct : ((inputElements inputs).map Expr.id).Nodup

theorem inputElements_concat (inputs : List (ExprMatrix α)) (input : ExprMatrix α) :
    inputElements (inputs ++ [input]) = inputElements inputs ++ input.elements := by
  rw [inputElements, List.flatMap_append, List.flatMap_singleton]
  rfl

theorem addSymbols_append (name : String) (front back : List (Expr α)) :
    ∀ known : Std.HashSet Nat, addSymbols name known (front ++ back) =
      (addSymbols name known front).bind fun known => addSymbols name known back := by
  induction front with
  | nil => exact fun _ => rfl
  | cons e front ih =>
      intro known
      rw [List.cons_append, addSymbols, addSymbols]
      split
      · rfl
      · exact ih _

theorem inputSymbols_append (name : String) (before after : List (ExprMatrix α)) :
    ∀ (known : Std.HashSet Nat) (index : Nat), inputSymbols name known index (before ++ after) =
      (inputSymbols name known index before).bind fun known =>
        inputSymbols name known (index + before.length) after := by
  induction before with
  | nil => exact fun _ _ => rfl
  | cons input before ih =>
      intro known index
      rw [List.cons_append, inputSymbols, inputSymbols]
      split
      swap
      · rfl
      cases addSymbols name known input.elements with
      | error => rfl
      | ok known =>
          rw [List.length_cons, Nat.add_comm before.length, ← Nat.add_assoc]
          exact ih known (index + 1)

/-- Inputs that bind symbols are gone through, and then their symbols are known. -/
theorem Bindable.exists_known (h : Bindable inputs) (name : String) :
    ∃ known, inputSymbols name ∅ 0 inputs = .ok known ∧
      ∀ i, known.contains i = true ↔ i ∈ (inputElements inputs).map Expr.id := by
  have hnew : ∀ i ∈ (inputElements inputs).map Expr.id, (∅ : Std.HashSet Nat).contains i = false :=
    fun i _ => by simp
  obtain ⟨known, hknown⟩ := inputSymbols_of_nodup name 0 h.symbolic h.distinct hnew
  obtain ⟨_, _, _, hcontains⟩ := inputSymbols_ok hknown
  exact ⟨known, hknown, fun i => by simp [hcontains i]⟩

/-- An input that does not consist of symbols is refused behind those that can be bound. -/
theorem inputSymbols_of_notSymbols (hbefore : Bindable before) {input : ExprMatrix α}
    (hinput : ∃ e ∈ input.elements, e.isSymbol = false) (name : String) :
    inputSymbols name ∅ 0 (before ++ input :: after) =
      .error (.notSymbols (.input before.length name)) := by
  obtain ⟨known, hknown, _⟩ := hbefore.exists_known name
  have hnot : ¬input.isSymbolic = true := by
    obtain ⟨e, he, hsymbol⟩ := hinput
    intro hall
    rw [List.all_eq_true.mp hall e he] at hsymbol
    exact Bool.noConfusion hsymbol
  rw [inputSymbols_append, hknown, Except.bind, inputSymbols, if_neg hnot, Nat.zero_add]

/-- An input with a symbol that was there before is refused at the first such symbol. -/
theorem inputSymbols_of_repeated {input : ExprMatrix α} {front back : List (Expr α)} {id : Nat}
    {symbol : String} (hsymbolic : ∀ e ∈ inputElements (before ++ [input]), e.isSymbol = true)
    (helements : input.elements = front ++ .symbol id symbol :: back)
    (hdistinct : ((inputElements before ++ front).map Expr.id).Nodup)
    (hrepeated : id ∈ (inputElements before ++ front).map Expr.id) (name : String) :
    inputSymbols name ∅ 0 (before ++ input :: after) = .error (.repeatedInput name symbol) := by
  rw [inputElements_concat] at hsymbolic
  rw [List.map_append, List.nodup_append] at hdistinct
  obtain ⟨hdistinctBefore, hdistinctFront, happart⟩ := hdistinct
  have hbefore : Bindable before :=
    ⟨fun e he => hsymbolic e (List.mem_append_left _ he), hdistinctBefore⟩
  obtain ⟨known, hknown, hcontains⟩ := hbefore.exists_known name
  have hinput : input.isSymbolic = true :=
    List.all_eq_true.mpr fun e he => hsymbolic e (List.mem_append_right _ he)
  -- the symbols in front of the repeated one are added
  have hfresh : ∀ i ∈ front.map Expr.id, known.contains i = false := by
    intro i hi
    rw [← Bool.not_eq_true, hcontains]
    exact fun hi' => happart i hi' i hi rfl
  obtain ⟨known', hknown'⟩ := addSymbols_of_nodup name hdistinctFront hfresh
  obtain ⟨_, _, hcontains'⟩ := addSymbols_ok hknown'
  have hseen : known'.contains (Expr.symbol id symbol : Expr α).id = true := by
    rw [List.map_append, List.mem_append] at hrepeated
    rw [hcontains', hcontains]
    exact hrepeated
  rw [inputSymbols_append, hknown, Except.bind, inputSymbols, if_pos hinput, helements,
    addSymbols_append, hknown', Except.bind, addSymbols, if_pos hseen]
  rfl

/-- Some elements are all new, or there is a first that is not. -/
theorem nodup_or_repeated {ids : List Nat} (hids : ids.Nodup) (es : List (Expr α)) :
    (ids ++ es.map Expr.id).Nodup ∨ ∃ front e back, es = front ++ e :: back ∧
      (ids ++ front.map Expr.id).Nodup ∧ e.id ∈ ids ++ front.map Expr.id := by
  induction es using List.reverseRecOn with
  | nil => exact Or.inl (by rwa [List.map_nil, List.append_nil])
  | append_singleton es last ih =>
      rcases ih with hnodup | ⟨front, e, back, rfl, hnodup, hrepeated⟩
      · by_cases hlast : last.id ∈ ids ++ es.map Expr.id
        · exact Or.inr ⟨es, last, [], rfl, hnodup, hlast⟩
        · refine Or.inl ?_
          rw [List.map_append, ← List.append_assoc, List.map_singleton]
          refine List.nodup_append.mpr ⟨hnodup, List.nodup_singleton _, fun i hi j hj heq => ?_⟩
          exact hlast (List.mem_singleton.mp hj ▸ heq ▸ hi)
      · exact Or.inr ⟨front, e, back ++ [last], by simp, hnodup, hrepeated⟩

/-! ## Missing symbols -/

/-- The symbols of the outputs that are no inputs, each where it occurs first, by identity and
name. -/
def missing (inputs outputs : List (ExprMatrix α)) : List (Nat × String) :=
  ((outputElements outputs).flatMap Expr.leaves).eraseDups.filter fun leaf =>
    decide (leaf.1 ∉ (inputElements inputs).map Expr.id)

/-- No symbol is missing where every symbol below an output is bound. -/
theorem missing_eq_nil_iff : missing inputs outputs = [] ↔
    ∀ e ∈ outputElements outputs, ∀ x, e.Reaches x → x.isSymbol = true →
      x.id ∈ (inputElements inputs).map Expr.id := by
  rw [missing, List.filter_eq_nil_iff]
  constructor
  · intro h e he x hreach hsymbol
    cases x with
    | symbol id symbol =>
        have hleaf : (id, symbol) ∈ ((outputElements outputs).flatMap Expr.leaves).eraseDups :=
          List.mem_eraseDups.mpr (List.mem_flatMap.mpr ⟨e, he, Expr.mem_leaves.mpr hreach⟩)
        simpa [Expr.id] using h _ hleaf
    | const | unary | binary => exact absurd hsymbol Bool.false_ne_true
  · intro h leaf hleaf
    obtain ⟨e, he, hleaf⟩ := List.mem_flatMap.mp (List.mem_eraseDups.mp hleaf)
    have hbound := h e he _ (Expr.mem_leaves.mp hleaf) rfl
    simpa [Expr.id] using hbound

theorem accepted_iff : Accepted inputs outputs ↔ Bindable inputs ∧ missing inputs outputs = [] := by
  rw [missing_eq_nil_iff]
  exact ⟨fun h => ⟨⟨h.symbolic, h.distinct⟩, h.closed⟩, fun h => ⟨h.1.symbolic, h.1.distinct, h.2⟩⟩

/-- The names of the free symbols that are not known are those of the missing ones. -/
theorem names_freeSymbols {pool : Pool α} (hpool : ∀ e ∈ outputElements outputs, e ∈ pool)
    {known : Std.HashSet Nat}
    (hknown : ∀ i, known.contains i = true ↔ i ∈ (inputElements inputs).map Expr.id) :
    ((freeSymbols (outputElements outputs)).filter fun e => !known.contains e.id).filterMap
        Expr.symbolName? = (missing inputs outputs).map Prod.snd := by
  rw [missing, ← freeSymbols_leaves hpool]
  generalize freeSymbols (outputElements outputs) = es
  induction es with
  | nil => rfl
  | cons e es ih =>
      cases e with
      | symbol id symbol =>
          have hleaf : (Expr.symbol id symbol : Expr α).leaf? = some (id, symbol) := rfl
          have hid : (Expr.symbol id symbol : Expr α).id = id := rfl
          rw [List.filter_cons, List.filterMap_cons_some hleaf, List.filter_cons, hid]
          by_cases hmem : id ∈ (inputElements inputs).map Expr.id
          · rw [if_neg (by simp [(hknown id).mpr hmem]), if_neg (by simpa using hmem), ih]
          · have hnew : ¬known.contains id = true := fun h => hmem ((hknown id).mp h)
            rw [if_pos (by simpa using hnew), if_pos (by simpa using hmem), List.map_cons, ← ih]
            rfl
      | const | unary | binary =>
          rw [List.filter_cons, List.filterMap_cons_none rfl, ← ih]
          split
          · rfl
          · rfl

/-! ## The verdict -/

/-- What the kinds of all inputs and outputs come to. -/
def KindOf (inputs outputs : List (ExprMatrix α)) (kind : Kind) : Prop :=
  kind.Common ((inputs ++ outputs).map ExprMatrix.kind)

/-- What becomes of a name, inputs and outputs. Every case but the first requires that kinds do not
mix, and every case of an input that those before it bind symbols. -/
inductive Verdict (name : String) (inputs outputs : List (ExprMatrix α)) :
    Except AlgebraError (SymbolicFunction α) → Prop where
  /-- The first matrix is named that clashes with those before it. -/
  | mixed {before after : List (ExprMatrix α)} {m : ExprMatrix α} {kind : Kind}
      (hmatrices : inputs ++ outputs = before ++ m :: after)
      (hbefore : kind.Common (before.map ExprMatrix.kind)) (hclash : kind.Clashes m.kind) :
      Verdict name inputs outputs (.error (.kinds .function kind m.kind))
  /-- The first input is named that does not consist of symbols. -/
  | notSymbols {before after : List (ExprMatrix α)} {input : ExprMatrix α} {kind : Kind}
      (hkind : KindOf inputs outputs kind) (hinputs : inputs = before ++ input :: after)
      (hbefore : Bindable before) (hinput : ∃ e ∈ input.elements, e.isSymbol = false) :
      Verdict name inputs outputs (.error (.notSymbols (.input before.length name)))
  /-- The first symbol is named that was there before, in this input or another. -/
  | repeatedInput {before after : List (ExprMatrix α)} {input : ExprMatrix α} {kind : Kind}
      {front back : List (Expr α)} {id : Nat} {symbol : String}
      (hkind : KindOf inputs outputs kind) (hinputs : inputs = before ++ input :: after)
      (hsymbolic : ∀ e ∈ inputElements (before ++ [input]), e.isSymbol = true)
      (helements : input.elements = front ++ .symbol id symbol :: back)
      (hdistinct : ((inputElements before ++ front).map Expr.id).Nodup)
      (hrepeated : id ∈ (inputElements before ++ front).map Expr.id) :
      Verdict name inputs outputs (.error (.repeatedInput name symbol))
  /-- All missing symbols are named. -/
  | freeSymbols {kind : Kind} (hkind : KindOf inputs outputs kind) (hinputs : Bindable inputs)
      (hmissing : missing inputs outputs ≠ []) :
      Verdict name inputs outputs
        (.error (.freeSymbols name ((missing inputs outputs).map Prod.snd)))
  | accepted {kind : Kind} (hkind : KindOf inputs outputs kind) (hinputs : Bindable inputs)
      (hmissing : missing inputs outputs = []) :
      Verdict name inputs outputs (.ok ⟨name, kind, inputs, outputs⟩)

variable {pool : Pool α} {kind : Kind}

/-- Where the kinds come to one and the inputs bind symbols, the missing symbols decide. -/
theorem make_of_bindable (hpool : ∀ e ∈ outputElements outputs, e ∈ pool)
    (hkind : KindOf inputs outputs kind) (hinputs : Bindable inputs) (name : String) :
    make name inputs outputs =
      if missing inputs outputs = [] then .ok ⟨name, kind, inputs, outputs⟩
      else .error (.freeSymbols name ((missing inputs outputs).map Prod.snd)) := by
  obtain ⟨known, hknown, hcontains⟩ := hinputs.exists_known name
  have hnames := names_freeSymbols hpool hcontains
  split_ifs with hmissing
  · exact make_of_accepted (ExprMatrix.combineKinds_of_common .function hkind)
      (accepted_iff.mpr ⟨hinputs, hmissing⟩)
  · have hfree : ¬((freeSymbols (outputElements outputs)).filter
        fun e => !known.contains e.id).isEmpty = true := by
      intro hempty
      rw [List.isEmpty_iff.mp hempty, List.filterMap_nil] at hnames
      exact hmissing (List.map_eq_nil_iff.mp hnames.symm)
    rw [make, ExprMatrix.combineKinds_of_common .function hkind, hknown, ← hnames]
    simp only [bind, Except.bind, if_neg hfree]
    rfl

/-- **Each case of the verdict is what `make` comes to.** -/
theorem make_of_verdict (hpool : ∀ e ∈ outputElements outputs, e ∈ pool)
    {result : Except AlgebraError (SymbolicFunction α)}
    (h : Verdict name inputs outputs result) : make name inputs outputs = result := by
  cases h with
  | mixed hmatrices hbefore hclash =>
      rw [make, hmatrices, List.map_append, List.map_cons,
        ExprMatrix.combineKinds_of_clash .function hbefore hclash]
      rfl
  | notSymbols hkind hinputs hbefore hinput =>
      rw [make, ExprMatrix.combineKinds_of_common .function hkind]
      subst hinputs
      rw [inputSymbols_of_notSymbols hbefore hinput]
      rfl
  | repeatedInput hkind hinputs hsymbolic helements hdistinct hrepeated =>
      rw [make, ExprMatrix.combineKinds_of_common .function hkind]
      subst hinputs
      rw [inputSymbols_of_repeated hsymbolic helements hdistinct hrepeated]
      rfl
  | freeSymbols hkind hinputs hmissing =>
      rw [make_of_bindable hpool hkind hinputs, if_neg hmissing]
  | accepted hkind hinputs hmissing =>
      rw [make_of_bindable hpool hkind hinputs, if_pos hmissing]

/-- The input that follows some others does not consist of symbols, or has one that was there
before. -/
inductive Refused (before : List (ExprMatrix α)) (input : ExprMatrix α) : Prop where
  | notSymbols (h : ∃ e ∈ input.elements, e.isSymbol = false)
  | repeated {front back : List (Expr α)} {e : Expr α}
      (hsymbolic : ∀ e ∈ input.elements, e.isSymbol = true)
      (helements : input.elements = front ++ e :: back)
      (hdistinct : ((inputElements before ++ front).map Expr.id).Nodup)
      (hrepeated : e.id ∈ (inputElements before ++ front).map Expr.id)

/-- An input is bound after others, or refused. -/
theorem Bindable.concat (h : Bindable inputs) (input : ExprMatrix α) :
    Bindable (inputs ++ [input]) ∨ Refused inputs input := by
  by_cases hsymbolic : ∀ e ∈ input.elements, e.isSymbol = true
  swap
  · exact Or.inr (.notSymbols (by simpa using hsymbolic))
  rcases nodup_or_repeated h.distinct input.elements with
    hnodup | ⟨front, e, back, helements, hdistinct, hrepeated⟩
  · refine Or.inl ⟨?_, ?_⟩
    · rw [inputElements_concat]
      exact List.forall_mem_append.mpr ⟨h.symbolic, hsymbolic⟩
    · rwa [inputElements_concat, List.map_append]
  · rw [← List.map_append] at hdistinct hrepeated
    exact Or.inr (.repeated hsymbolic helements hdistinct hrepeated)

/-- The inputs bind symbols, or there is a first that is refused. -/
theorem bindable_or_refused (inputs : List (ExprMatrix α)) :
    Bindable inputs ∨ ∃ before input after, inputs = before ++ input :: after ∧ Bindable before ∧
      Refused before input := by
  induction inputs using List.reverseRecOn with
  | nil => exact Or.inl ⟨List.forall_mem_nil _, List.nodup_nil⟩
  | append_singleton inputs last ih =>
      rcases ih with hbindable | ⟨before, input, after, rfl, hbefore, hrefused⟩
      · rcases hbindable.concat last with hall | hrefused
        · exact Or.inl hall
        · exact Or.inr ⟨inputs, last, [], rfl, hbindable, hrefused⟩
      · exact Or.inr ⟨before, input, after ++ [last], by simp, hbefore, hrefused⟩

/-- There is a verdict on everything. -/
theorem exists_verdict (name : String) (inputs outputs : List (ExprMatrix α)) :
    ∃ result, Verdict name inputs outputs result := by
  rcases ExprMatrix.combineKinds_cases .function ((inputs ++ outputs).map ExprMatrix.kind) with
    ⟨kind, hkind, _⟩ | ⟨before, after, kind, next, hkinds, hbefore, hclash⟩
  swap
  · obtain ⟨front, back, hmatrices, rfl, hback⟩ := List.map_eq_append_iff.mp hkinds
    obtain ⟨m, rest, rfl, rfl, rfl⟩ := List.map_eq_cons_iff.mp hback
    exact ⟨_, .mixed hmatrices hbefore hclash⟩
  rcases bindable_or_refused inputs with hinputs | ⟨before, input, after, hsplit, hbefore, hrefused⟩
  · by_cases hmissing : missing inputs outputs = []
    · exact ⟨_, .accepted hkind hinputs hmissing⟩
    · exact ⟨_, .freeSymbols hkind hinputs hmissing⟩
  · cases hrefused with
    | notSymbols hinput => exact ⟨_, .notSymbols hkind hsplit hbefore hinput⟩
    | @repeated front back e hsymbolic helements hdistinct hrepeated =>
        have hall : ∀ e ∈ inputElements (before ++ [input]), e.isSymbol = true := by
          rw [inputElements_concat]
          exact List.forall_mem_append.mpr ⟨hbefore.symbolic, hsymbolic⟩
        have hsymbol : e.isSymbol = true :=
          hsymbolic e (helements ▸ List.mem_append_right _ List.mem_cons_self)
        cases e with
        | symbol => exact ⟨_, .repeatedInput hkind hsplit hall helements hdistinct hrepeated⟩
        | const | unary | binary => exact absurd hsymbol Bool.false_ne_true

/-! ## What a function asks for -/

section

variable {β : Type} {meaning : Interpretation α β} {args results : List (Grid β)}

/-- The arguments have as many values as the inputs have elements. -/
def Match (inputs : List (ExprMatrix α)) (args : List (Grid β)) : Prop :=
  List.Forall₂ (fun input arg => input.numel = arg.numel) inputs args

/-- Arguments that are accepted match the inputs. -/
theorem match_of_checkArguments {index : Nat}
    (hcheck : checkArguments name index inputs args = .ok ())
    (hlength : args.length = inputs.length) (hinputs : ∀ input ∈ inputs, input.grid.Full)
    (hargs : ∀ arg ∈ args, arg.Full) : Match inputs args := by
  induction inputs generalizing args index with
  | nil => exact List.eq_nil_of_length_eq_zero hlength ▸ .nil
  | cons input inputs ih =>
      cases args with
      | nil => exact absurd hlength.symm (Nat.succ_ne_zero _)
      | cons arg args =>
          rw [checkArguments] at hcheck
          split at hcheck
          · injection hcheck
          rename_i hfits
          obtain ⟨hinput, hinputs⟩ := List.forall_mem_cons.mp hinputs
          obtain ⟨harg, hargs⟩ := List.forall_mem_cons.mp hargs
          refine .cons ?_ (ih hcheck (Nat.succ.inj hlength) hinputs hargs)
          rcases not_and_or.mp hfits with hshape | hnumel
          · obtain ⟨hrows, hcols⟩ := Prod.mk.inj (not_not.mp hshape)
            exact hinput.trans ((congrArg₂ (· * ·) hrows hcols).trans harg.symm)
          · exact not_not.mp hnumel

/-- Arguments that match distinct symbols bind these and no others. -/
theorem contains_bindings [Inhabited β] (hdistinct : ((inputElements inputs).map Expr.id).Nodup)
    (h : Match inputs args) (i : Nat) :
    (bindings inputs args).contains i = true ↔ i ∈ (inputElements inputs).map Expr.id := by
  obtain ⟨σ, hσ⟩ := exists_gives hdistinct h
  rw [bindings_eq hσ, Std.HashMap.contains_ofList, List.contains_iff_mem, List.map_map]
  rfl

/-- A call accepts arguments that match the inputs. -/
theorem match_of_call {f : SymbolicFunction α} (hcall : f.call meaning args = .ok results)
    (hinputs : ∀ input ∈ f.inputs, input.grid.Full) (hargs : ∀ arg ∈ args, arg.Full) :
    Match f.inputs args := by
  rw [call] at hcall
  by_cases hlength : args.length = f.inputs.length
  · rw [if_neg (not_not.mpr hlength)] at hcall
    obtain ⟨_, hcheck, _⟩ := bind_eq_ok_iff.mp hcall
    exact match_of_checkArguments hcheck hlength hinputs hargs
  · rw [if_pos hlength] at hcall
    injection hcall

end

/-- A function never falls back on anything. -/
structure Complete [Written α] (f : SymbolicFunction α) : Prop where
  /-- A call that accepts its arguments has a value for every symbol that it evaluates. -/
  bound : ∀ {β : Type} {meaning : Interpretation α β} {args results : List (Grid β)},
    (∀ arg ∈ args, arg.Full) → f.call meaning args = .ok results →
    ∀ x ∈ evaluationOrder (outputElements f.outputs), x.isSymbol = true →
      (bindings f.inputs args).contains x.id = true
  /-- It finds every value that it reads. -/
  filled : ∀ {β : Type} (meaning : Interpretation α β) (symbols : Nat → β),
    Fills meaning symbols (outputElements f.outputs)
  /-- No symbol is missing when code is generated. -/
  generated : ∀ options function symbols,
    generateCode options f ≠ .error (.freeSymbols function symbols)

theorem complete_of_accepted [Written α] {f : SymbolicFunction α}
    (hpool : ∀ e ∈ outputElements f.outputs, e ∈ pool)
    (hfull : ∀ input ∈ f.inputs, input.grid.Full) (hf : Accepted f.inputs f.outputs) :
    f.Complete where
  bound {β meaning _ _} hargs hcall x hx hsymbol := by
    have : Inhabited β := ⟨meaning.unbound⟩
    obtain ⟨e, he, hreach⟩ := (mem_evaluationOrder hpool x).mp hx
    exact (contains_bindings hf.distinct (match_of_call hcall hfull hargs) x.id).mpr
      (hf.closed e he x hreach hsymbol)
  filled _ _ := fills_of_mem hpool
  generated options function symbols := by
    obtain ⟨kernel, hkernel⟩ := Kernel.exists_ofFunction hf
    rw [generateCode, CodeOptions.check, hkernel]
    split
    · exact fun h => nomatch h
    · exact fun h => nomatch h

/-- **Functions are what binds symbols, mixes no kinds and is closed**, and everything else is
refused for the first rule that it breaks. A function never falls back on anything. -/
theorem make_iff_verdict [Written α] (hpool : ∀ e ∈ outputElements outputs, e ∈ pool)
    (hfull : ∀ input ∈ inputs, input.grid.Full) (name : String) :
    (∀ result, make name inputs outputs = result ↔ Verdict name inputs outputs result) ∧
    ((∃ f, make name inputs outputs = .ok f) ↔
      ¬(.sx ∈ (inputs ++ outputs).map ExprMatrix.kind ∧
        .mx ∈ (inputs ++ outputs).map ExprMatrix.kind) ∧ Accepted inputs outputs) ∧
    ∀ f, make name inputs outputs = .ok f → f.Complete := by
  obtain ⟨verdict, hverdict⟩ := exists_verdict name inputs outputs
  have hmake := make_of_verdict hpool hverdict
  refine ⟨fun result => ⟨?_, make_of_verdict hpool⟩, ?_, fun f hf => ?_⟩
  · rintro rfl
    rwa [hmake]
  · rw [← Kind.exists_common_iff]
    constructor
    · rintro ⟨f, hf⟩
      obtain rfl := hmake.symm.trans hf
      cases hverdict with
      | accepted hkind hinputs hmissing =>
          exact ⟨⟨_, hkind⟩, accepted_iff.mpr ⟨hinputs, hmissing⟩⟩
    · rintro ⟨⟨kind, hkind⟩, haccepted⟩
      exact ⟨_, make_of_accepted (ExprMatrix.combineKinds_of_common .function hkind) haccepted⟩
  · obtain ⟨_, rfl, rfl, haccepted⟩ := make_ok hpool hf
    exact complete_of_accepted hpool hfull haccepted

/-- The square of the sine of a symbol, without the symbol as an input, with it as two inputs, and
with it as one. -/
theorem make_iff_verdict_square :
    make "f" [] [.column .sx [sharedSquare]] =
      (.error (.freeSymbols "f" ["x"]) : Except AlgebraError (SymbolicFunction Float)) ∧
    make "f" (sineInputs ++ sineInputs) [.column .sx [sharedSquare]] =
      .error (.repeatedInput "f" "x") ∧
    ∃ f, make "f" sineInputs [.column .sx [sharedSquare]] = .ok f ∧ f.Complete := by
  have hpool : ∀ e ∈ outputElements [.column .sx [sharedSquare]],
      e ∈ (sharedNodes : Pool Float) :=
    List.forall_mem_singleton.mpr sharedSquare_mem
  have hfull : ∀ input ∈ sineInputs, input.grid.Full := List.forall_mem_singleton.mpr rfl
  refine ⟨?_, ?_, ?_⟩
  · have hkind : KindOf [] [ExprMatrix.column .sx [(sharedSquare : Expr Float)]] .sx := by
      simp [KindOf, Kind.Common, ExprMatrix.column]
    have hmissing :
        missing [] [ExprMatrix.column .sx [(sharedSquare : Expr Float)]] = [(0, "x")] := by rfl
    have hverdict : Verdict "f" [] [.column .sx [sharedSquare]] _ :=
      .freeSymbols hkind ⟨List.forall_mem_nil _, List.nodup_nil⟩
        (hmissing ▸ List.cons_ne_nil _ _)
    rw [hmissing] at hverdict
    exact ((make_iff_verdict hpool (List.forall_mem_nil _) "f").1 _).mpr hverdict
  · have hkind : KindOf (sineInputs ++ sineInputs)
        [ExprMatrix.column .sx [(sharedSquare : Expr Float)]] .sx := by
      simp [KindOf, Kind.Common, sineInputs, ExprMatrix.column]
    have htwice : ∀ input ∈ sineInputs ++ sineInputs, input.grid.Full :=
      List.forall_mem_append.mpr ⟨hfull, hfull⟩
    have helements : (ExprMatrix.column .sx [(.symbol 0 "x" : Expr Float)]).elements =
        [] ++ .symbol 0 "x" :: [] := rfl
    refine ((make_iff_verdict hpool htwice "f").1 _).mpr ?_
    -- the second input is refused behind the first
    have hinputs : sineInputs ++ sineInputs = sineInputs ++ .column .sx [.symbol 0 "x"] :: [] := rfl
    exact .repeatedInput hkind hinputs (by decide) helements (by decide) (by decide)
  · have haccepted : Accepted sineInputs [.column .sx [sharedSquare]] :=
      accepted_sineInputs (List.forall_mem_singleton.mpr ⟨rfl, rfl⟩)
    obtain ⟨_, hiff, hcomplete⟩ := make_iff_verdict hpool hfull "f"
    obtain ⟨f, hf⟩ := hiff.mpr ⟨by decide, haccepted⟩
    exact ⟨f, hf, hcomplete f hf⟩

end SymbolicFunction

end ExplicitOde
