import ExplicitOde.Proofs.Code.Names

/-!
# What a source tells about its function

Whoever calls a generated function learns from the queries how many inputs and outputs there are,
and for each of them the name and the array of its pattern. `Metadata` is what the answers are read
as, together with the arrays themselves and the statements of the kernel.

* **In a unit, functions are found by their names**: `metadata?_sourceDefinitions`.
* A name need not be an identifier, and then there is no unit. **The text of a source still has the
  same parts around it**, and the parts are read as the same metadata: `exists_sections`.
-/

namespace ExplicitOde

namespace Code

open C

variable {α : Type}

/-! ## Metadata -/

/-- What the queries about a function answer, with the arrays that they point to and the statements
of the kernel. -/
structure Metadata where
  tables : List Table
  inputCount : Nat
  outputCount : Nat
  /-- The cases of a query by number, each with what is returned. -/
  inputNames : List (Nat × Piece)
  outputNames : List (Nat × Piece)
  inputPatterns : List (Nat × Piece)
  outputPatterns : List (Nat × Piece)
  kernel : List Stmt

/-- Reads the answers to the queries as metadata. -/
def Metadata.read? (tables : List Table) (kernel : Option (List Stmt))
    (answer : Query → Option (List Piece)) : Option Metadata := do
  return {
    tables
    inputCount := ← (answer .inputCount).bind readResult
    outputCount := ← (answer .outputCount).bind readResult
    inputNames := ← (answer .inputName).bind readChoice
    outputNames := ← (answer .outputName).bind readChoice
    inputPatterns := ← (answer .inputPattern).bind readChoice
    outputPatterns := ← (answer .outputPattern).bind readChoice
    kernel := ← kernel
  }

/-- The metadata of a function in a unit, where everything is found by its name. -/
def metadata? (function : String) (unit : TranslationUnit) : Option Metadata :=
  Metadata.read? (unit.definitions.filterMap Definition.table?)
    ((unit.body? kernelName).bind (readStatements realType))
    fun query => unit.body? (query.name function)

/-- The texts of the parts of a source. -/
structure Sections where
  start : String
  arrays : String
  description : String
  /-- What is between the braces of the kernel. -/
  kernel : String
  entry : String
  /-- What is between the braces of a query. -/
  answer : Query → String
  rest : String

namespace Sections

/-- The source of a function with these parts. -/
def text (s : Sections) (function : String) : String :=
  s.start ++ s.arrays ++ s.description ++
    ("static " ++ evaluationHead kernelName ++ " \x7b\n" ++ s.kernel ++ "\x7d\n") ++ s.entry ++
    String.join (Query.all.map fun query =>
      "\n" ++ query.head function ++ " \x7b" ++ s.answer query ++ "\x7d\n") ++ s.rest

/-- The metadata in the parts. -/
def metadata? (s : Sections) : Option Metadata :=
  (readUnit s.arrays).bind fun unit =>
    Metadata.read? (unit.definitions.filterMap Definition.table?) (C.read realType s.kernel)
      fun query => textPieces (lines (s.answer query).toList)

end Sections

/-- The array of a pattern that is meant. -/
def patternTable (index : Nat) (shape : Shape) : Table :=
  ⟨patternName index, (densePattern shape).length, densePattern shape⟩

/-- The name of the array of the pattern of a matrix. -/
def patternPiece (f : SymbolicFunction α) (m : ExprMatrix α) : Piece :=
  .token (.word (patternName (f.patternIndex m.shape)))

/-- The metadata that is meant. -/
def sourceMetadata [Written α] (floats : FloatWidth) (f : SymbolicFunction α) (kernel : Kernel α) :
    Metadata where
  tables := f.shapes.zipIdx.map fun (shape, k) => patternTable k shape
  inputCount := f.inputs.length
  outputCount := f.outputs.length
  inputNames :=
    casesOf ((List.range f.inputs.length).map fun i => .quoted (SymbolicFunction.inputName i))
  outputNames :=
    casesOf ((List.range f.outputs.length).map fun i => .quoted (SymbolicFunction.outputName i))
  inputPatterns := casesOf (f.inputs.map (patternPiece f))
  outputPatterns := casesOf (f.outputs.map (patternPiece f))
  kernel := bodyStmts floats kernel

/-- The bodies of the queries are read as what they answer. -/
theorem read?_answerPieces [Written α] (floats : FloatWidth) (f : SymbolicFunction α)
    (kernel : Kernel α) :
    Metadata.read? (f.shapes.zipIdx.map fun (shape, k) => patternTable k shape)
      (some (bodyStmts floats kernel)) (fun query => some (answerPieces f query)) =
      some (sourceMetadata floats f kernel) := by
  have hresult : ∀ n, readResult (resultPieces n) = some n := integer?_integerPiece
  simp only [Metadata.read?, answerPieces, Option.bind_some, hresult, readChoice_eq]
  rfl

/-! ## Arrays -/

theorem integer?_toString (n : Nat) : integer? (toString n).toList = some n := by
  rw [Nat.toString_eq_ofList_toDigits, String.toList_ofList, integer?_toDigits]

theorem table?_arrayDefinition (index : Nat) (shape : Shape) :
    (arrayDefinition index (densePattern shape)).table? = some (patternTable index shape) := by
  have htype : tokens arrayType = [.word "static", .word "const", .word intType] := by cbv
  have hhead : readArray (arrayDefinition index (densePattern shape)).head =
      some (patternName index, (densePattern shape).length) := by
    rw [arrayDefinition, htype]
    exact congrArg (Option.map _) (integer?_toString _)
  have hbody := readIntegers_eq (densePattern_ne_nil shape)
  rw [Definition.table?, hhead, arrayDefinition, hbody]
  rfl

/-- A function is no array. -/
theorem IsHead.table? {type parameters : String} (h : IsHead type parameters) (name : String)
    (body : List Piece) : (⟨headTokens type name parameters, body⟩ : Definition).table? = none := by
  obtain ⟨_, _, _, htype, hopens, _⟩ := h.lex_eq
  obtain ⟨us, hus⟩ := List.head?_eq_some_iff.mp hopens
  have hword : ∀ t ∈ tokens type ++ [.word name], t ≠ .openingBracket :=
    List.forall_mem_append.mpr
      ⟨fun t ht => (htype t ht).2, List.forall_mem_singleton.mpr (nofun)⟩
  have hhead := readArray_append hword us
  rw [List.append_assoc, List.singleton_append, ← hus] at hhead
  rw [Definition.table?, headTokens, hhead]
  rfl

theorem filterMap_table? (f : SymbolicFunction α) : (arrayDefinitions f).filterMap
    Definition.table? = f.shapes.zipIdx.map fun (shape, k) => patternTable k shape := by
  rw [arrayDefinitions, List.filterMap_map, ← List.filterMap_eq_map]
  exact List.filterMap_congr fun p _ => table?_arrayDefinition p.2 p.1

/-! ## Functions in a unit -/

theorem toList_patternName (k : Nat) :
    (patternName k).toList = "odesens_s".toList ++ Nat.toDigits 10 k := by
  have hname : patternName k = "odesens_s" ++ toString k := rfl
  rw [hname, String.toList_append, Nat.toString_eq_ofList_toDigits,
    @String.toList_ofList (Nat.toDigits 10 k)]

theorem patternName_injective {j k : Nat} (h : patternName j = patternName k) : j = k :=
  numbered_injective "odesens_s" h

theorem patternName_ne_kernelName (k : Nat) : patternName k ≠ kernelName := by
  intro h
  have hletters := congrArg (fun w : String => w.toList.take 9) h
  rw [toList_patternName] at hletters
  exact absurd hletters (by simp +decide)

/-- The text ends with a digit. -/
def EndsInDigit (w : String) : Prop := ∃ c ∈ w.toList.getLast?, c.isDigit = true

theorem endsInDigit_patternName (k : Nat) : EndsInDigit (patternName k) := by
  obtain ⟨hne, hdigits⟩ := digits_toDigits k
  refine ⟨(Nat.toDigits 10 k).getLast hne, ?_, hdigits _ (List.getLast_mem hne)⟩
  rw [toList_patternName, List.getLast?_append, List.getLast?_eq_some_getLast hne]
  rfl

theorem endsInDigit_kernelName : EndsInDigit kernelName := ⟨'0', by decide, by decide⟩

namespace Query

theorem name_ne (query : Query) (function : String) {w : String} (h : EndsInDigit w) :
    w ≠ query.name function := by
  rintro rfl
  obtain ⟨c, hc, hdigit⟩ := h
  have hending : ∃ d, query.ending.toList.getLast? = some d ∧ d.isDigit = false := by
    cases query <;> exact ⟨_, rfl, rfl⟩
  obtain ⟨d, hlast, hletter⟩ := hending
  rw [name, String.toList_append, List.getLast?_append, hlast] at hc
  obtain rfl := Option.some.inj hc
  exact Bool.noConfusion (hletter.symm.trans hdigit)

theorem name_inj {query other : Query} {function : String} :
    other.name function = query.name function ↔ other = query := by
  refine ⟨fun h => ?_, fun h => h ▸ rfl⟩
  have hlists := congrArg String.toList h
  rw [name, name, String.toList_append, String.toList_append] at hlists
  have hall : ∀ query ∈ all, ∀ other ∈ all,
      other.ending.toList = query.ending.toList → other = query := by decide
  have hmem : ∀ query : Query, query ∈ all := by
    intro query
    cases query <;> decide
  exact hall query (hmem query) other (hmem other) (List.append_cancel_left hlists)

theorem name_ne_self (query : Query) (function : String) : function ≠ query.name function := by
  intro h
  have hlengths := congrArg (fun w : String => w.toList.length) h
  have hending : 0 < query.ending.toList.length := by cases query <;> decide
  simp only [name, String.toList_append, List.length_append] at hlengths
  omega

end Query

/-- No array has a name that is not one of a pattern. -/
theorem find?_arrayDefinitions (f : SymbolicFunction α) {name : String}
    (h : ∀ k, patternName k ≠ name) :
    (arrayDefinitions f).find? (fun d => declared d.head == some name) = none := by
  rw [List.find?_eq_none]
  intro d hd
  obtain ⟨p, _, rfl⟩ := List.mem_map.mp hd
  rw [declared_array]
  simpa using h p.2

section

variable [Written α] (floats : FloatWidth) (f : SymbolicFunction α) (kernel : Kernel α)

theorem body?_kernel : TranslationUnit.body? ⟨unitMacros, sourceDefinitions floats f kernel⟩
    kernelName = some (kernelBody floats kernel) := by
  have hkernel : declared (kernelDefinition floats kernel).head = some kernelName :=
    isHead_kernel.declared _
  rw [TranslationUnit.body?, sourceDefinitions, List.find?_append,
    find?_arrayDefinitions f patternName_ne_kernelName, Option.none_or, List.singleton_append,
    List.find?_cons_of_pos (by simp [hkernel])]
  rfl

theorem body?_query (query : Query) :
    TranslationUnit.body? ⟨unitMacros, sourceDefinitions floats f kernel⟩ (query.name f.name) =
      some (answerPieces f query) := by
  have hkernel : declared (kernelDefinition floats kernel).head = some kernelName :=
    isHead_kernel.declared _
  have hentry : declared (entryDefinition f.name).head = some f.name :=
    isHead_evaluation.declared _
  have hkernelName : kernelName ≠ query.name f.name := query.name_ne _ endsInDigit_kernelName
  have hquery : (fun other => declared (queryDefinition f other).head == some (query.name f.name)) =
      fun other => other == query := by
    funext other
    rw [queryDefinition, other.isHead.declared]
    simp [Query.name_inj]
  have hfind : Query.all.find? (fun other => other == query) = some query := by
    cases query <;> rfl
  rw [TranslationUnit.body?, sourceDefinitions, List.find?_append,
    find?_arrayDefinitions f fun k => query.name_ne _ (endsInDigit_patternName k), Option.none_or,
    List.singleton_append, List.find?_cons_of_neg (by simp [hkernel, hkernelName]),
    List.singleton_append, List.find?_cons_of_neg (by simp [hentry, query.name_ne_self]),
    List.find?_map]
  show ((Query.all.find? fun other =>
    declared (queryDefinition f other).head == some (query.name f.name)).map _).map _ = _
  rw [hquery, hfind]
  rfl

variable [LawfulWritten α]

/-- **The metadata in the unit of a source is what is meant.** -/
theorem metadata?_sourceDefinitions :
    metadata? f.name ⟨unitMacros, sourceDefinitions floats f kernel⟩ =
      some (sourceMetadata floats f kernel) := by
  have hfunctions : ([kernelDefinition floats kernel] ++ ([entryDefinition f.name] ++
      Query.all.map (queryDefinition f))).filterMap Definition.table? = [] := by
    rw [List.filterMap_eq_nil_iff]
    simp only [List.forall_mem_append, List.forall_mem_singleton, List.forall_mem_map]
    exact ⟨isHead_kernel.table? _ _, isHead_evaluation.table? _ _,
      fun query _ => query.isHead.table? _ _⟩
  have hkernel : (some (kernelBody floats kernel)).bind (readStatements realType) =
      some (bodyStmts floats kernel) := (kernelBody_ok floats kernel).2.2
  have hanswer := funext (body?_query floats f kernel)
  rw [metadata?, body?_kernel, hkernel, hanswer, sourceDefinitions, List.filterMap_append,
    hfunctions, List.append_nil, filterMap_table?, read?_answerPieces]

end

/-! ## Parts of a text -/

theorem lines_singleton {cs : List Char} (hne : cs ≠ []) (h : '\n' ∉ cs) : lines cs = [cs] := by
  induction cs with
  | nil => exact absurd rfl hne
  | cons c cs ih =>
      obtain ⟨hc, hcs⟩ := not_or.mp (List.mem_cons.not.mp h)
      rw [lines, if_neg (Ne.symm hc)]
      cases cs with
      | nil => rfl
      | cons d cs => rw [ih (List.cons_ne_nil d cs) hcs]

/-- What is between the braces of a query. -/
theorem exists_answer (f : SymbolicFunction α) (query : Query) : ∃ answer,
    textOfLines (queryLines f query) =
      query.head f.name ++ " \x7b" ++ answer ++ "\x7d\n" ∧
    textPieces (lines answer.toList) = some (answerPieces f query) := by
  -- a count is answered on the line of its query, all else on lines of its own
  rcases queryLines_eq f query with ⟨n, hlines, hanswer⟩ | ⟨body, hlines, hbody, hplain, _⟩
  · refine ⟨" return" ++ " " ++ toString n ++ "; ", ?_, ?_⟩
    · rw [hlines, ← String.toList_inj, toList_textOfLines]
      simp [String.toList_append, toString_text]
    · have hbefore : lex " return".toList = some [.word "return"] := by cbv
      have hafter : lex "; ".toList = some [.semicolon] := by cbv
      have hplain : Plain (" return" ++ " " ++ toString n ++ "; ") := by
        simp only [avoids_append, (inline_integer n).plain, and_true]
        decide
      have hne : (" return" ++ " " ++ toString n ++ "; ").toList ≠ [] := by
        simp [String.toList_append]
      rw [lines_singleton hne fun hmem => (hplain.isPlain _ hmem).1 rfl, textPieces_singleton,
        linePieces_of_lex (lex_integer hbefore hafter (fun _ => ends_cons rfl) n), hanswer]
      rfl
  · refine ⟨"\n" ++ textOfLines body, ?_, ?_⟩
    · have hopening : " \x7b\n" = " \x7b" ++ "\n" := rfl
      rw [hlines, textOfLines_functionLines, hopening]
      simp only [String.append_assoc]
    · have hlinebreak : ∀ line ∈ [] :: body.map String.toList, '\n' ∉ line := by
        refine List.forall_mem_cons.mpr ⟨List.not_mem_nil, fun cs hcs hmem => ?_⟩
        obtain ⟨line, hline, rfl⟩ := List.mem_map.mp hcs
        exact ((hplain line hline).isPlain _ hmem).1 rfl
      have htext : ("\n" ++ textOfLines body).toList =
          ([] :: body.map String.toList).flatMap (· ++ ['\n']) := by
        rw [String.toList_append, toList_textOfLines_map]
        rfl
      rw [htext, lines_flatMap hlinebreak, textPieces, hbody, C.linePieces]
      rfl

/-- The text of the arrays is a unit of its own. -/
theorem readUnit_arrays (f : SymbolicFunction α) :
    readUnit (textOfLines (f.shapes.zipIdx.map fun (shape, k) => patternLine k shape)) =
      some ⟨[], arrayDefinitions f⟩ := by
  obtain ⟨hlines, hcomplete⟩ : Compiles [] _ [] _ ∧ _ := compiles_arrays f
  exact readUnit_eq (toList_textOfLines_map _) hlines hcomplete

variable [Written α] [LawfulWritten α]

/-- **The source of a function has parts that are read as its metadata**, whatever its name is. -/
theorem exists_sections (options : CodeOptions) (f : SymbolicFunction α) (kernel : Kernel α) :
    ∃ s : Sections, textOfLines (sourceLines options f kernel) = s.text f.name ∧
      s.metadata? = some (sourceMetadata options.floats f kernel) := by
  choose answer htext hpieces using exists_answer f
  refine ⟨{
    start := textOfLines ([banner] ++ linkageStart ++ ["", "#include <math.h>", ""] ++
      numberTypeLines options ++ [""])
    arrays := textOfLines (f.shapes.zipIdx.map fun (shape, k) => patternLine k shape)
    description := textOfLines ([""] ++ ["/* " ++ description f ++ " */"])
    kernel := textOfLines (bodyLines options.floats kernel)
    entry := textOfLines ([""] ++ functionLines (evaluationHead f.name)
      [s!"  return {kernelName}(arg, res, iw, w, mem);"])
    answer
    rest := textOfLines ((if options.gateway = .mex then mexLines f else []) ++ [""] ++ linkageEnd)
  }, ?_, ?_⟩
  · have hqueries : textOfLines (Query.all.flatMap fun query => "" :: queryLines f query) =
        String.join (Query.all.map fun query =>
          "\n" ++ query.head f.name ++ " \x7b" ++ answer query ++ "\x7d\n") := by
      rw [textOfLines_flatMap]
      refine congrArg String.join (List.map_congr_left fun query _ => ?_)
      rw [← List.singleton_append, textOfLines_append, htext]
      simp only [String.append_assoc]
      rfl
    rw [Sections.text, ← hqueries, sourceLines]
    simp only [textOfLines_append, textOfLines_functionLines, bodyLines, String.append_assoc]
  · rw [Sections.metadata?, readUnit_arrays, Option.bind_some, filterMap_table?,
      read_body options.floats kernel, funext hpieces, read?_answerPieces]

end Code

end ExplicitOde
