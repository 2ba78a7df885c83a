import ExplicitOde.Proofs.Code.Metadata

/-!
# Patterns and the kernel agree

A solver that uses generated code learns from the metadata how long the blocks are that it shall
give to the function. The patterns, the choices between them and the kernel are written apart from
each other, each by its own loop over inputs and outputs.

**They agree for every function** (`generateCode_sparsity`): each input and output has the pattern
of its shape, patterns are shared exactly between equal shapes, the kernel assigns every element of
an output once and in order, and it reads no element of an input that the pattern does not have.
-/

namespace ExplicitOde

open C Kernel SymbolicFunction

variable {α : Type}

/-! ## What metadata says -/

namespace C.Table

/-- The array is a dense pattern in compressed column storage: the numbers of rows and of columns,
the offset of every column and of the end, and the row of every element. -/
def IsDense (t : Table) (rows cols : Nat) : Prop :=
  t.entries = [rows, cols] ++ (List.range (cols + 1)).map (· * rows) ++
    (List.replicate cols (List.range rows)).flatten

/-- The offset in a pattern where the last column ends. -/
def lastOffset? (t : Table) : Option Nat := t.entries[1]?.bind fun cols => t.entries[2 + cols]?

theorem IsDense.lastOffset? {t : Table} {rows cols : Nat} (h : t.IsDense rows cols) :
    t.lastOffset? = some (cols * rows) := by
  have hpattern : t.entries = rows :: cols :: ((List.range (cols + 1)).map (· * rows) ++
      (List.replicate cols (List.range rows)).flatten) := h
  have hlast : t.entries[2 + cols]? = some (cols * rows) := by
    rw [hpattern, Nat.add_comm 2 cols, List.getElem?_cons_succ, List.getElem?_cons_succ,
      List.getElem?_append_left (by simp), List.getElem?_map,
      List.getElem?_range (Nat.lt_succ_self _)]
    rfl
  have hcols : t.entries[1]? = some cols := by
    rw [hpattern]
    rfl
  rw [Table.lastOffset?, hcols]
  exact hlast

end C.Table

namespace Code

namespace Metadata

/-- The array that the case of a number returns. -/
def table? (data : Metadata) (cases : List (Nat × Piece)) (i : Nat) : Option Table :=
  match cases.find? (·.1 == i) with
  | some (_, .token (.word name)) => data.tables.find? (·.name == name)
  | _ => none

/-- The array of the pattern of an input. -/
def inputTable? (data : Metadata) : Nat → Option Table := data.table? data.inputPatterns

/-- The array of the pattern of an output. -/
def outputTable? (data : Metadata) : Nat → Option Table := data.table? data.outputPatterns

/-- What the cases of the inputs and then of the outputs return. -/
def references (data : Metadata) : List Piece :=
  (data.inputPatterns ++ data.outputPatterns).map Prod.snd

/-- The elements of arguments that the kernel reads, each with the number of the argument. -/
def reads (data : Metadata) : List (Term × Term) :=
  (data.kernel.flatMap Stmt.parts).filterMap (Term.element? "arg")

/-- The elements of results that the kernel assigns, each with the number of the result. -/
def assigned (data : Metadata) : List (Term × Term) :=
  (data.kernel.flatMap Stmt.targets).filterMap (Term.element? "res")

/-- The places of an output that the kernel assigns. -/
def assignedTo (data : Metadata) (output : Nat) : List Term :=
  data.assigned.filterMap fun (o, k) => if o.integer? = some output then some k else none

/-- The metadata is that of a function with these inputs and outputs. -/
structure Matches (data : Metadata) (inputs outputs : List (ExprMatrix α)) : Prop where
  names : (data.tables.map Table.name).Nodup
  lengths : ∀ t ∈ data.tables, t.length = t.entries.length
  counts : data.inputCount = inputs.length ∧ data.outputCount = outputs.length
  inputCases : data.inputNames.map Prod.fst = List.range inputs.length ∧
    data.inputPatterns.map Prod.fst = List.range inputs.length
  outputCases : data.outputNames.map Prod.fst = List.range outputs.length ∧
    data.outputPatterns.map Prod.fst = List.range outputs.length
  inputPatterns : ∀ i m, inputs[i]? = some m →
    ∃ t, data.inputTable? i = some t ∧ t.IsDense m.rows m.cols
  outputPatterns : ∀ o m, outputs[o]? = some m →
    ∃ t, data.outputTable? o = some t ∧ t.IsDense m.rows m.cols
  /-- An array is shared by equal shapes and by no others. -/
  shared : ∀ (a b : Nat) (m m' : ExprMatrix α), (inputs ++ outputs)[a]? = some m →
    (inputs ++ outputs)[b]? = some m' →
    (data.references[a]? = data.references[b]? ↔ m.shape = m'.shape)
  /-- The elements of an output are assigned one after the other. -/
  results : ∀ o < outputs.length, ∃ t count, data.outputTable? o = some t ∧
    t.lastOffset? = some count ∧ (data.assignedTo o).length = count ∧
    (data.assignedTo o).map Term.integer? = (List.range count).map some
  /-- Nothing is read outside of an input. -/
  arguments : ∀ a b, (a, b) ∈ data.reads → ∃ i k t count, a.integer? = some i ∧
    b.integer? = some k ∧ data.inputTable? i = some t ∧ t.lastOffset? = some count ∧ k < count

/-- The places of an output that are assigned are all those of its shape, in order. -/
theorem Matches.places {data : Metadata} {inputs outputs : List (ExprMatrix α)}
    (h : data.Matches inputs outputs) {o : Nat} {m : ExprMatrix α} (ho : outputs[o]? = some m) :
    (data.assignedTo o).map Term.integer? = (List.range (m.cols * m.rows)).map some := by
  obtain ⟨t, ht, hdense⟩ := h.outputPatterns o m ho
  obtain ⟨_, count, ht', hlast, _, hplaces⟩ := h.results o (List.getElem?_eq_some_iff.mp ho).1
  obtain rfl := Option.some.inj (ht.symm.trans ht')
  obtain rfl := Option.some.inj (hdense.lastOffset?.symm.trans hlast)
  exact hplaces

end Metadata

/-! ## Cases -/

theorem find?_zipIdx {β : Type} (xs : List β) (n k : Nat) :
    (xs.zipIdx n).find? (fun p => p.2 == n + k) = xs[k]?.map fun x => (x, n + k) := by
  induction xs generalizing n k with
  | nil => rfl
  | cons x xs ih =>
      rw [List.zipIdx_cons]
      cases k with
      | zero => rw [List.find?_cons_of_pos (by simp)]; rfl
      | succ k =>
          have hothers := ih (n + 1) k
          rw [Nat.add_right_comm, Nat.add_assoc] at hothers
          rw [List.find?_cons_of_neg (by simp), hothers]
          rfl

theorem find?_casesOf (answers : List Piece) (i : Nat) :
    (casesOf answers).find? (·.1 == i) = answers[i]?.map fun p => (i, p) := by
  have hfind := find?_zipIdx answers 0 i
  rw [Nat.zero_add] at hfind
  rw [casesOf, List.find?_map]
  show (answers.zipIdx.find? fun p => p.2 == i).map _ = _
  rw [hfind, Option.map_map]
  rfl

theorem fst_casesOf (answers : List Piece) :
    (casesOf answers).map Prod.fst = List.range answers.length := by
  have hnumbers := map_zipIdx answers id
  rw [List.map_id] at hnumbers
  rw [casesOf, List.map_map, ← hnumbers]
  rfl

theorem snd_casesOf (answers : List Piece) : (casesOf answers).map Prod.snd = answers := by
  rw [casesOf, List.map_map]
  exact List.zipIdx_map_fst 0 answers

/-! ## Patterns -/

variable {f : SymbolicFunction α}

theorem find?_patternTables (f : SymbolicFunction α) (k : Nat) :
    (f.shapes.zipIdx.map fun (shape, k) => patternTable k shape).find? (·.name == patternName k) =
      f.shapes[k]?.map (patternTable k) := by
  have hname : (fun p : Shape × Nat => (patternTable p.2 p.1).name == patternName k) =
      fun p => p.2 == k := by
    funext p
    rw [Bool.eq_iff_iff, beq_iff_eq, beq_iff_eq]
    exact ⟨patternName_injective, fun h => h ▸ rfl⟩
  have hfind := find?_zipIdx f.shapes 0 k
  rw [Nat.zero_add] at hfind
  rw [List.find?_map]
  show (f.shapes.zipIdx.find? fun p => (patternTable p.2 p.1).name == patternName k).map _ = _
  rw [hname, hfind, Option.map_map]
  rfl

/-- The array that stands for a shape is at its index. -/
theorem getElem?_patternIndex {m : ExprMatrix α} (h : m ∈ f.inputs ++ f.outputs) :
    f.shapes[f.patternIndex m.shape]? = some m.shape := by
  have hmem : m.shape ∈ f.shapes := List.mem_eraseDups.mpr (List.mem_map_of_mem h)
  rw [patternIndex, List.getElem?_eq_getElem (List.idxOf_lt_length_of_mem hmem),
    List.getElem_idxOf]

theorem patternIndex_inj {m m' : ExprMatrix α} (h : m ∈ f.inputs ++ f.outputs)
    (h' : m' ∈ f.inputs ++ f.outputs) :
    f.patternIndex m.shape = f.patternIndex m'.shape ↔ m.shape = m'.shape := by
  refine ⟨fun heq => ?_, fun heq => heq ▸ rfl⟩
  have hfound := getElem?_patternIndex h
  rw [heq, getElem?_patternIndex h'] at hfound
  exact (Option.some.inj hfound).symm

theorem isDense_patternTable (index : Nat) (m : ExprMatrix α) :
    (patternTable index m.shape).IsDense m.rows m.cols := rfl

/-- The last offset of a pattern is the number of elements. -/
theorem lastOffset?_patternTable (index : Nat) {m : ExprMatrix α} (h : m.grid.Full) :
    (patternTable index m.shape).lastOffset? = some m.elements.length := by
  have hcount : m.elements.length = m.rows * m.cols := h
  rw [(isDense_patternTable index m).lastOffset?, hcount, Nat.mul_comm]

section

variable [Written α] {floats : FloatWidth} {kernel : Kernel α}

/-- The case of a matrix returns the pattern of its shape. -/
theorem table?_casesOf {ms : List (ExprMatrix α)} (hms : ∀ m ∈ ms, m ∈ f.inputs ++ f.outputs)
    {i : Nat} {m : ExprMatrix α} (hi : ms[i]? = some m) :
    (sourceMetadata floats f kernel).table? (casesOf (ms.map (patternPiece f))) i =
      some (patternTable (f.patternIndex m.shape) m.shape) := by
  have hfind := find?_patternTables f (f.patternIndex m.shape)
  rw [getElem?_patternIndex (hms m (List.mem_of_getElem? hi))] at hfind
  rw [Metadata.table?, find?_casesOf, List.getElem?_map, hi]
  exact hfind

theorem references_sourceMetadata : (sourceMetadata floats f kernel).references =
    (f.inputs ++ f.outputs).map (patternPiece f) := by
  rw [Metadata.references, List.map_append, List.map_append]
  exact congrArg₂ _ (snd_casesOf _) (snd_casesOf _)

end

/-! ## The kernel -/

section

variable [Written α] (floats : FloatWidth)

/-- Literals are no elements of blocks. -/
theorem IsLiteral.element? {text : String} {a : Term} (h : IsLiteral text a) (w : String) :
    ∀ t ∈ a.parts, t.element? w = none := by
  have hmagnitude : ∀ {text : String} {a : Term}, IsMagnitude text a →
      ∀ t ∈ a.parts, t.element? w = none := by
    intro text a h
    cases h <;> exact List.forall_mem_singleton.mpr rfl
  cases h with
  | plain h => exact hmagnitude h
  | negative h => exact List.forall_mem_cons.mpr ⟨rfl, hmagnitude h⟩

variable [LawfulWritten α]

theorem element?_operand (a : Operand α) (w : String) :
    ∀ t ∈ (operandTerm floats a).parts, t.element? w = none := by
  cases a with
  | number v => exact (isLiteral_literal floats v).element? w
  | slot index => exact List.forall_mem_singleton.mpr rfl

/-- The only element of a block in what is assigned to a slot is that of an argument. -/
theorem element?_slot {value : SlotValue α} {t : Term} {p : Term × Term}
    (ht : t ∈ (slotTerm floats value).parts) (hp : t.element? "arg" = some p) :
    ∃ i k, value = .argument i k ∧ p = (integerTerm i, integerTerm k) := by
  have hnone : ∀ {ts : List Term}, t ∈ ts → ¬∀ t ∈ ts, t.element? "arg" = none := by
    intro ts hmem hall
    rw [hall t hmem] at hp
    exact nomatch hp
  cases value with
  | argument i k =>
      have hone : (slotTerm (α := α) floats (.argument i k)).parts.filterMap
          (Term.element? "arg") = [(integerTerm i, integerTerm k)] := rfl
      have hmem := List.mem_filterMap.mpr ⟨t, ht, hp⟩
      rw [hone] at hmem
      exact ⟨i, k, rfl, List.mem_singleton.mp hmem⟩
  | unary op a =>
      refine absurd ?_ (hnone ht)
      cases op <;> exact List.forall_mem_cons.mpr ⟨rfl, element?_operand floats a "arg"⟩
  | binary op a b =>
      refine absurd ?_ (hnone ht)
      cases op <;> exact List.forall_mem_cons.mpr ⟨rfl, List.forall_mem_append.mpr
        ⟨element?_operand floats a "arg", element?_operand floats b "arg"⟩⟩

/-- The block of an output reads no argument. -/
theorem element?_result {output : Nat} {elements : List (Operand α)} :
    ∀ stmt ∈ resultStmts floats output elements, ∀ t ∈ stmt.parts, t.element? "arg" = none := by
  have htarget : ∀ k, ∀ t ∈ (Term.index (.index (.name "res") (integerTerm output))
      (integerTerm k)).parts, t.element? "arg" = none := by
    intro k
    simp [Term.parts, Term.element?, integerTerm]
  rw [resultStmts]
  split
  · exact List.forall_mem_nil _
  · refine List.forall_mem_singleton.mpr (List.forall_mem_append.mpr ⟨?_, fun t ht => ?_⟩)
    · simp [Term.parts, Term.element?, integerTerm]
    · obtain ⟨_, hp, ht⟩ := List.mem_flatMap.mp ht
      obtain ⟨p, _, rfl⟩ := List.mem_map.mp hp
      rcases List.mem_append.mp ht with ht | ht
      · exact htarget p.2 t ht
      · exact element?_operand floats p.1 "arg" t ht

/-- **What a kernel reads are the arguments of its slots.** -/
theorem exists_argument {f : SymbolicFunction α} {kernel : Kernel α} {a b : Term}
    (h : (a, b) ∈ (sourceMetadata floats f kernel).reads) :
    ∃ i k, .argument i k ∈ kernel.slots ∧ a = integerTerm i ∧ b = integerTerm k := by
  obtain ⟨t, ht, hp⟩ := List.mem_filterMap.mp h
  obtain ⟨stmt, hstmt, ht⟩ := List.mem_flatMap.mp ht
  have hnone : t.element? "arg" ≠ none := by
    rw [hp]
    exact nofun
  -- of the statements, only those of slots read arguments
  rcases List.mem_append.mp hstmt with hstmt | hstmt
  · rcases List.mem_append.mp hstmt with hstmt | hstmt
    · rcases List.mem_append.mp hstmt with hstmt | hstmt
      · obtain ⟨row, _, rfl⟩ := List.mem_map.mp hstmt
        exact absurd ht List.not_mem_nil
      · obtain ⟨slot, hslot, rfl⟩ := List.mem_map.mp hstmt
        rcases List.mem_cons.mp ht with rfl | ht
        · exact absurd rfl hnone
        · obtain ⟨i, k, hvalue, heq⟩ := element?_slot floats ht hp
          obtain ⟨rfl, rfl⟩ := Prod.mk.inj heq
          exact ⟨i, k, hvalue ▸ List.fst_mem_of_mem_zipIdx hslot, rfl, rfl⟩
    · obtain ⟨result, _, hstmt⟩ := List.mem_flatMap.mp hstmt
      exact absurd (element?_result floats stmt hstmt t ht) hnone
  · rw [List.mem_singleton.mp hstmt] at ht
    rw [List.mem_singleton.mp ht] at hnone
    exact absurd rfl hnone

omit [LawfulWritten α]

/-- Slots are no elements of results. -/
theorem targets_slots (kernel : Kernel α) :
    (kernel.slots.zipIdx.map fun (value, k) => slotStmt floats k value).flatMap
      (fun stmt => stmt.targets.filterMap (Term.element? "res")) = [] := by
  refine List.flatMap_eq_nil_iff.mpr fun stmt hstmt => ?_
  obtain ⟨p, _, rfl⟩ := List.mem_map.mp hstmt
  rfl

/-- **What a kernel assigns are the elements of its results, one after the other.** -/
theorem assigned_sourceMetadata (f : SymbolicFunction α) (kernel : Kernel α) :
    (sourceMetadata floats f kernel).assigned = kernel.results.zipIdx.flatMap fun (elements, o) =>
      (List.range elements.length).map fun k => (integerTerm o, integerTerm k) := by
  -- a declaration of slots assigns no result
  have hdeclarations : ((slotRows kernel.slots.length).map fun row =>
      Stmt.declare (row.map slotName)).flatMap
        (fun stmt => stmt.targets.filterMap (Term.element? "res")) = [] := by
    simp [Stmt.targets]
  have hresult : ∀ (elements : List (Operand α)) (o : Nat),
      (resultStmts floats o elements).flatMap
        (fun stmt => stmt.targets.filterMap (Term.element? "res")) =
        (List.range elements.length).map fun k => (integerTerm o, integerTerm k) := by
    intro elements o
    rw [resultStmts]
    split
    · rename_i hempty
      rw [List.isEmpty_iff.mp hempty]
      rfl
    · rw [List.flatMap_singleton, Stmt.targets, List.map_map, List.filterMap_map, ← map_zipIdx,
        ← List.filterMap_eq_map]
      rfl
  rw [Metadata.assigned, List.filterMap_flatMap, sourceMetadata]
  dsimp only
  rw [bodyStmts, kernelStmts, List.flatMap_append, List.flatMap_append, List.flatMap_append,
    hdeclarations, targets_slots, List.flatMap_assoc]
  simp only [hresult]
  simp [Stmt.targets]

/-- What the element with one number contributes. -/
theorem flatMap_zipIdx {β γ : Type} {xs : List β} {x : β} (g : β → List γ) (n : Nat) {k : Nat}
    (h : xs[k]? = some x) :
    (xs.zipIdx n).flatMap (fun p => if p.2 = n + k then g p.1 else []) = g x := by
  induction xs generalizing n k with
  | nil => exact nomatch h
  | cons y ys ih =>
      rw [List.zipIdx_cons, List.flatMap_cons]
      cases k with
      | zero =>
          obtain rfl := Option.some.inj h
          have hothers : (ys.zipIdx (n + 1)).flatMap
              (fun p => if p.2 = n + 0 then g p.1 else []) = [] :=
            List.flatMap_eq_nil_iff.mpr fun p hp =>
              if_neg (Nat.ne_of_gt (List.le_snd_of_mem_zipIdx hp))
          rw [hothers, List.append_nil]
          exact if_pos rfl
      | succ k =>
          have hothers := ih (n + 1) h
          rw [Nat.add_right_comm, Nat.add_assoc] at hothers
          rw [hothers, if_neg (by simp), List.nil_append]

theorem integer?_integerTerm (n : Nat) : (integerTerm n).integer? = some n := integer?_toString n

theorem assignedTo_sourceMetadata (f : SymbolicFunction α) {kernel : Kernel α} {o : Nat}
    {elements : List (Operand α)} (h : kernel.results[o]? = some elements) :
    (sourceMetadata floats f kernel).assignedTo o =
      (List.range elements.length).map integerTerm := by
  have hone : ∀ p : List (Operand α) × Nat,
      ((List.range p.1.length).map fun k => (integerTerm p.2, integerTerm k)).filterMap
        (fun (a, k) => if a.integer? = some o then some k else none) =
      if p.2 = o then (List.range p.1.length).map integerTerm else [] := by
    intro p
    rw [List.filterMap_map]
    by_cases heq : p.2 = o <;> simp [integer?_integerTerm, heq]
  have hall := flatMap_zipIdx (fun es : List (Operand α) => (List.range es.length).map integerTerm)
    0 h
  rw [Nat.zero_add] at hall
  rw [Metadata.assignedTo, assigned_sourceMetadata, List.filterMap_flatMap, ← hall]
  exact congrArg (List.flatMap · _) (funext hone)

end

/-! ## Agreement -/

theorem nodup_tables (f : SymbolicFunction α) :
    ((f.shapes.zipIdx.map fun (shape, k) => patternTable k shape).map Table.name).Nodup := by
  have hnames : (f.shapes.zipIdx.map fun (shape, k) => patternTable k shape).map Table.name =
      (List.range f.shapes.length).map patternName := by
    rw [List.map_map, ← map_zipIdx]
    rfl
  rw [hnames]
  exact List.nodup_range.map fun _ _ => patternName_injective

/-- Arrays are told apart by shapes. -/
theorem patternPiece_inj {f : SymbolicFunction α} {m m' : ExprMatrix α}
    (h : m ∈ f.inputs ++ f.outputs) (h' : m' ∈ f.inputs ++ f.outputs) :
    patternPiece f m = patternPiece f m' ↔ m.shape = m'.shape := by
  rw [← patternIndex_inj h h', patternPiece, patternPiece]
  refine ⟨fun heq => ?_, fun heq => heq ▸ rfl⟩
  injection heq with heq
  injection heq with heq
  exact patternName_injective heq

variable [Written α] [LawfulWritten α]

omit [LawfulWritten α] in
/-- The block of an output has its own elements assigned, one after the other. -/
theorem results_sourceMetadata (floats : FloatWidth) (hfull : ∀ m ∈ f.outputs, m.grid.Full)
    {kernel : Kernel α} {nodes : List (Expr α)} (hkernel : KernelOf f nodes kernel) {o : Nat}
    (ho : o < f.outputs.length) : ∃ t count,
      (sourceMetadata floats f kernel).outputTable? o = some t ∧ t.lastOffset? = some count ∧
        ((sourceMetadata floats f kernel).assignedTo o).length = count ∧
        ((sourceMetadata floats f kernel).assignedTo o).map Term.integer? =
          (List.range count).map some := by
  have houtputs : ∀ m ∈ f.outputs, m ∈ f.inputs ++ f.outputs :=
    fun m hm => List.mem_append_right f.inputs hm
  have hm : f.outputs[o]? = some f.outputs[o] := List.getElem?_eq_getElem ho
  obtain ⟨elements, helements, hstands⟩ := Grid.forall₂_getElem? hkernel.results.flip hm
  have hassigned := assignedTo_sourceMetadata floats f helements
  rw [hstands.length_eq] at hassigned
  refine ⟨_, _, table?_casesOf houtputs hm,
    lastOffset?_patternTable _ (hfull _ (List.getElem_mem ho)), ?_, ?_⟩
  · rw [hassigned, List.length_map, List.length_range]
  · rw [hassigned, List.map_map]
    exact List.map_congr_left fun k _ => integer?_integerTerm k

/-- The metadata of a function with its kernel is that of its inputs and outputs. -/
theorem matches_sourceMetadata (floats : FloatWidth) {f : SymbolicFunction α}
    (hf : Accepted f.inputs f.outputs) (hfull : ∀ m ∈ f.inputs ++ f.outputs, m.grid.Full)
    {kernel : Kernel α} {nodes : List (Expr α)} (hkernel : KernelOf f nodes kernel) :
    (sourceMetadata floats f kernel).Matches f.inputs f.outputs := by
  have hinputs : ∀ m ∈ f.inputs, m ∈ f.inputs ++ f.outputs :=
    fun m hm => List.mem_append_left f.outputs hm
  have houtputs : ∀ m ∈ f.outputs, m ∈ f.inputs ++ f.outputs :=
    fun m hm => List.mem_append_right f.inputs hm
  have hnumbers : ∀ n (name : Nat → Piece),
      (casesOf ((List.range n).map name)).map Prod.fst = List.range n := by
    intro n name
    rw [fst_casesOf, List.length_map, List.length_range]
  have hpatterns : ∀ ms : List (ExprMatrix α),
      (casesOf (ms.map (patternPiece f))).map Prod.fst = List.range ms.length := by
    intro ms
    rw [fst_casesOf, List.length_map]
  exact {
    names := nodup_tables f
    lengths := by
      intro t ht
      obtain ⟨p, _, rfl⟩ := List.mem_map.mp ht
      rfl
    counts := ⟨rfl, rfl⟩
    inputCases := ⟨hnumbers _ _, hpatterns _⟩
    outputCases := ⟨hnumbers _ _, hpatterns _⟩
    inputPatterns := fun i m hi => ⟨_, table?_casesOf hinputs hi, isDense_patternTable _ m⟩
    outputPatterns := fun o m ho => ⟨_, table?_casesOf houtputs ho, isDense_patternTable _ m⟩
    shared := by
      intro a b m m' ha hb
      rw [references_sourceMetadata, List.getElem?_map, List.getElem?_map, ha, hb,
        Option.map_some, Option.map_some, Option.some_inj]
      exact patternPiece_inj (List.mem_of_getElem? ha) (List.mem_of_getElem? hb)
    results := fun o ho =>
      results_sourceMetadata floats (fun m hm => hfull m (houtputs m hm)) hkernel ho
    arguments := by
      intro a b h
      obtain ⟨i, k, hslot, rfl, rfl⟩ := exists_argument floats h
      obtain ⟨m, hi, hk⟩ := hkernel.argument hf hslot
      exact ⟨i, k, _, _, integer?_integerTerm i, integer?_integerTerm k, table?_casesOf hinputs hi,
        lastOffset?_patternTable _ (hfull m (hinputs m (List.mem_of_getElem? hi))), hk⟩
  }

/-- **Sparsity metadata matches the kernel.** For every function and accepted options, code is
generated, and its source has parts that are read as the metadata of the inputs and outputs,
whatever the name of the function is. If the name is an identifier, then the source is a unit of C
in which the same metadata is found under the names of the queries. -/
theorem generateCode_sparsity {pool : Pool α} {name : String} {inputs outputs : List (ExprMatrix α)}
    {f : SymbolicFunction α} {options : CodeOptions}
    (hpool : ∀ e ∈ outputElements outputs, e ∈ pool)
    (hfull : ∀ m ∈ inputs ++ outputs, m.grid.Full)
    (hf : SymbolicFunction.make name inputs outputs = .ok f) (hoptions : options.check = .ok ()) :
    ∃ code data, generateCode options f = .ok code ∧ data.Matches inputs outputs ∧
      (∃ s : Sections, code.source = s.text name ∧ s.metadata? = some data) ∧
      (isIdentifier name = true → (readUnit code.source).bind (metadata? name) = some data) := by
  obtain ⟨rfl, rfl, rfl, haccepted⟩ := make_ok hpool hf
  obtain ⟨kernel, nodes, hrun, hkernel⟩ := exists_kernelOf hpool haccepted
  obtain ⟨s, htext, hmetadata⟩ := exists_sections options f kernel
  have hcode := generateCode_eq hoptions hrun
  have hsource := source_of_ok hcode hrun
  have hunit : isIdentifier f.name = true →
      (readUnit (textOfLines (sourceLines options f kernel))).bind (metadata? f.name) =
        some (sourceMetadata options.floats f kernel) := by
    intro hname
    rw [readUnit_source options kernel hname]
    exact metadata?_sourceDefinitions options.floats f kernel
  refine ⟨_, _, hcode, matches_sourceMetadata options.floats haccepted hfull hkernel,
    ⟨s, hsource.trans htext, hmetadata⟩, fun hname => ?_⟩
  rw [hsource]
  exact hunit hname

/-! A matrix is handed out turned and as it is, beside one without rows. -/

/-- Six symbols in three columns. -/
def six : ExprMatrix Float :=
  ⟨.sx, ⟨2, 3, [.symbol 0 "a", .symbol 1 "b", .symbol 2 "c", .symbol 3 "d", .symbol 4 "e",
    .symbol 5 "f"]⟩⟩

/-- The same symbols in two columns. -/
def turned : ExprMatrix Float :=
  ⟨.sx, ⟨3, 2, [.symbol 0 "a", .symbol 2 "c", .symbol 4 "e", .symbol 1 "b", .symbol 3 "d",
    .symbol 5 "f"]⟩⟩

/-- Two columns without elements. -/
def rowless : ExprMatrix Float := ⟨.sx, ⟨0, 2, []⟩⟩

/-- The function. -/
def turn : SymbolicFunction Float := ⟨"turn", .sx, [six, rowless], [turned, six, rowless]⟩

/-- The symbols are all the nodes there are. -/
def turnPool : Pool Float := .ofSymbols 6 six.elements (by decide) (by decide)

theorem turn_mem : ∀ e ∈ outputElements turn.outputs, e ∈ turnPool := by
  have hall : outputElements turn.outputs ⊆ six.elements := by
    simp [outputElements, turn, turned, rowless, six, ExprMatrix.elements]
  exact fun _ he => hall he

theorem turn_accepted : Accepted turn.inputs turn.outputs where
  symbolic := by decide
  distinct := by decide
  -- what is below an element is one of the symbols
  closed e he _ hreach _ := List.mem_map_of_mem (Pool.mem_of_reaches (turn_mem e he) hreach)

/-- Equal shapes share an array, and a matrix that is turned has one of its own. -/
theorem generateCode_sparsity_turn : ∃ code data, generateCode {} turn = .ok code ∧
    (readUnit code.source).bind (metadata? "turn") = some data ∧
    data.references[0]? = data.references[3]? ∧ data.references[1]? = data.references[4]? ∧
    data.references[0]? ≠ data.references[2]? ∧
    (data.inputTable? 1).map Table.entries = some [0, 2, 0, 0, 0] ∧
    (data.outputTable? 0).map Table.entries = some [3, 2, 0, 3, 6, 0, 1, 2, 0, 1, 2] ∧
    (data.outputTable? 1).map Table.entries = some [2, 3, 0, 2, 4, 6, 0, 1, 0, 1, 0, 1] ∧
    (data.assignedTo 0).map Term.integer? = (List.range 6).map some ∧ data.assignedTo 2 = [] := by
  have hfull : ∀ m ∈ turn.inputs ++ turn.outputs, m.grid.Full := by
    simp only [turn, List.cons_append, List.nil_append, List.forall_mem_cons]
    exact ⟨rfl, rfl, rfl, rfl, rfl, List.forall_mem_nil _⟩
  have hmake : SymbolicFunction.make turn.name turn.inputs turn.outputs = .ok turn :=
    make_of_accepted rfl turn_accepted
  have hoptions : CodeOptions.check {} = .ok () := rfl
  obtain ⟨code, data, hcode, hmatches, _, hunit⟩ :=
    generateCode_sparsity turn_mem hfull hmake hoptions
  have hentries : ∀ {table : Option Table} {rows cols : Nat},
      (∃ t, table = some t ∧ t.IsDense rows cols) →
      table.map Table.entries = some ([rows, cols] ++ (List.range (cols + 1)).map (· * rows) ++
        (List.replicate cols (List.range rows)).flatten) := by
    rintro table rows cols ⟨t, rfl, hdense⟩
    exact congrArg some hdense
  refine ⟨code, data, hcode, hunit (by decide), ?_, ?_, ?_, ?_, ?_, ?_, ?_, ?_⟩
  · exact (hmatches.shared 0 3 _ _ rfl rfl).mpr rfl
  · exact (hmatches.shared 1 4 _ _ rfl rfl).mpr rfl
  · exact fun heq => absurd ((hmatches.shared 0 2 _ _ rfl rfl).mp heq) (by decide)
  · exact hentries (hmatches.inputPatterns 1 _ rfl)
  · exact hentries (hmatches.outputPatterns 0 _ rfl)
  · exact hentries (hmatches.outputPatterns 1 _ rfl)
  · exact hmatches.places (o := 0) (m := turned) rfl
  · exact List.map_eq_nil_iff.mp (hmatches.places (o := 2) (m := rowless) rfl)

end Code

end ExplicitOde
