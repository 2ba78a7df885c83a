import ExplicitOde.Proofs.Code.Definition

/-!
# Sources as translation units

Around its definitions, a source has comments, definitions of macros, and parts that are for other
compilers. **The source of a function whose name is an identifier is read as one unit**: the arrays
of its patterns, the kernel, the entry point and the queries, in this order, and nothing else, with
the gateway or without it: `readUnit_source`.
-/

namespace ExplicitOde

namespace Code

open C

variable {α : Type} {macros : List String}

/-! ## Comments and directives -/

/-- A comment that ends on its line is left out. -/
theorem compiles_comment {text : String} (h : Avoids ['\n', '#', '*'] text) :
    Compiles macros (["/*" ++ text ++ "*/"].map String.toList) macros [] := by
  have htext : Plain text := h.mono (by decide)
  have hplain : Plain ("/*" ++ text ++ "*/") := by
    simp only [avoids_append, htext, and_true]
    decide
  refine compiles_lines (List.forall_mem_singleton.mpr hplain) ?_
  -- without a star in its text, a comment ends where it should
  have hskip : ∀ cs : List Char, '*' ∉ cs → skipComment (cs ++ ['*', '/']) = some [] := by
    intro cs hcs
    induction cs with
    | nil => rfl
    | cons c cs ih =>
        obtain ⟨hc, hcs⟩ := not_or.mp (List.mem_cons.not.mp hcs)
        rw [List.cons_append, skipComment]
        · exact ih hcs
        · exact fun _ hstar => absurd hstar.symm hc
  have hstar : '*' ∉ text.toList := fun hmem => h _ hmem (by decide)
  have htext : ("/*" ++ text ++ "*/").toList = '/' :: '*' :: (text.toList ++ ['*', '/']) := by
    simp [String.toList_append]
  have hread : readPiece ('/' :: '*' :: (text.toList ++ ['*', '/'])) = some (none, []) := by
    rw [readPiece, hskip _ hstar]
    rfl
  rw [List.map_singleton, textPieces_singleton, htext, linePieces_of_readPiece rfl hread,
    C.linePieces]
  rfl

theorem avoids_description {f : SymbolicFunction α} (h : isIdentifier f.name = true) :
    Avoids ['\n', '#', '*'] (description f) := by
  have hinteger : ∀ n : Nat, Avoids ['\n', '#', '*'] (toString n) := avoids_integer rfl
  have hshape : ∀ shape, Avoids ['\n', '#', '*'] (describeShape shape) := by
    intro shape
    unfold describeShape
    split
    · decide
    · simp only [toString_text, avoids_append, hinteger, and_true]
      decide
    · decide
    · simp only [toString_text, avoids_append, hinteger, and_true]
      decide
  have hall : ∀ {name : Nat → String}, (∀ i, isIdentifier (name i) = true) →
      ∀ ms : List (ExprMatrix α), Avoids ['\n', '#', '*'] (describeAll name ms) := by
    intro name hname ms
    refine avoids_intercalate (by decide) fun w hw => ?_
    obtain ⟨p, _, rfl⟩ := List.mem_map.mp hw
    exact avoids_append.mpr ⟨avoids_identifier rfl (hname p.2), hshape _⟩
  have hname : Avoids ['\n', '#', '*'] f.name := avoids_identifier rfl h
  simp only [description, avoids_append, hname, hall isIdentifier_inputName,
    hall isIdentifier_outputName, and_true, true_and]
  decide

theorem compiles_description {f : SymbolicFunction α} (h : isIdentifier f.name = true) :
    Compiles macros (["/* " ++ description f ++ " */"].map String.toList) macros [] := by
  have hspace : Avoids ['\n', '#', '*'] " " := by decide
  have htext : "/* " ++ description f ++ " */" =
      "/*" ++ (" " ++ description f ++ " ") ++ "*/" := by
    apply String.toList_inj.mp
    simp [String.toList_append]
  rw [htext]
  exact compiles_comment (avoids_append.mpr
    ⟨avoids_append.mpr ⟨hspace, avoids_description h⟩, hspace⟩)

theorem compiles_empty : Compiles macros ([""].map String.toList) macros [] :=
  compiles_lines (List.forall_mem_singleton.mpr (by decide)) (by cbv)

/-- Lines for another compiler are left out. -/
theorem compiles_excluded {first : String} {inside : List String} {condition : String}
    (hfirst : directive? first.toList = some (some (.ifDefined condition)))
    (hline : '\n' ∉ first.toList) (hcondition : macros.contains condition = false)
    (hinside : ∀ line ∈ inside, line = "#include <mex.h>" ∨ Plain line) :
    Compiles macros ((first :: (inside ++ ["#endif"])).map String.toList) macros [] := by
  have hend : directive? "#endif".toList = some (some .endif) ∧ '\n' ∉ "#endif".toList :=
    ⟨by cbv, by decide⟩
  have hinclude : directive? "#include <mex.h>".toList = some (some .include) ∧
      '\n' ∉ "#include <mex.h>".toList := ⟨by cbv, by decide⟩
  rw [List.map_cons, List.map_append, List.map_singleton]
  refine compiles_skipped ?_ hfirst hcondition (fun cs hcs => ?_) hend.1
  · refine List.forall_mem_cons.mpr ⟨hline, List.forall_mem_append.mpr ⟨fun cs hcs => ?_,
      List.forall_mem_singleton.mpr hend.2⟩⟩
    obtain ⟨line, hmem, rfl⟩ := List.mem_map.mp hcs
    rcases hinside line hmem with rfl | hplain
    · exact hinclude.2
    · exact fun hbreak => absurd rfl (hplain.isPlain _ hbreak).1
  · obtain ⟨line, hmem, rfl⟩ := List.mem_map.mp hcs
    rcases hinside line hmem with rfl | hplain
    · exact Or.inr hinclude.1
    · exact Or.inl hplain.isPlain.directive?

/-- What is only for compilers of C++ is left out. -/
theorem compiles_linkage (h : macros.contains "__cplusplus" = false) :
    Compiles macros (linkageStart.map String.toList) macros [] ∧
      Compiles macros (linkageEnd.map String.toList) macros [] := by
  have hdirective : directive? "#ifdef __cplusplus".toList =
      some (some (.ifDefined "__cplusplus")) ∧ '\n' ∉ "#ifdef __cplusplus".toList :=
    ⟨by cbv, by decide⟩
  have hinside : Plain "extern \"C\" \x7b" ∧ Plain "\x7d /* extern \"C\" */" := by decide
  have hblock : ∀ {line : String}, Plain line →
      Compiles macros (("#ifdef __cplusplus" :: ([line] ++ ["#endif"])).map String.toList)
        macros [] :=
    fun hline => compiles_excluded hdirective.1 hdirective.2 h
      (List.forall_mem_singleton.mpr (Or.inr hline))
  exact ⟨hblock hinside.1, hblock hinside.2⟩

/-- The macros of a unit. -/
def unitMacros : List String := [realType, intType]

theorem compiles_numberTypeLines (options : CodeOptions) :
    Compiles [] ((numberTypeLines options).map String.toList) unitMacros [] := by
  have hreal : Compiles [] ((typeLines realType options.floats.cType).map String.toList)
      [realType] [] := by
    cases options.floats <;>
      exact compiles_macro (by decide) (by cbv) rfl (by cbv) (by cbv)
  have hint : Compiles [realType] ((typeLines intType options.integers.cType).map String.toList)
      unitMacros [] := by
    cases options.integers <;>
      exact compiles_macro (by decide) (by cbv) (by decide) (by cbv) (by cbv)
  rw [numberTypeLines, List.map_append, List.map_append]
  exact (hreal.append compiles_empty).append hint

/-! ## The gateway -/

theorem plain_mexError : Plain mexError := by decide

theorem plain_mexInputLines {function : String} (h : isIdentifier function = true) (i : Nat)
    (m : ExprMatrix α) : ∀ line ∈ mexInputLines function i m, Plain line := by
  have hinteger := fun n => (inline_integer n).plain
  have hfunction : Plain function := (inline_identifier h).plain
  simp only [mexInputLines, List.forall_mem_cons, toString_text, avoids_append, hinteger, hfunction,
    and_true]
  decide

theorem plain_mexOutputLines (i : Nat) (m : ExprMatrix α) :
    ∀ line ∈ mexOutputLines i m, Plain line := by
  have hinteger := fun n => (inline_integer n).plain
  simp only [mexOutputLines, List.forall_mem_cons, toString_text, avoids_append, hinteger, and_true]
  decide

theorem plain_mexCountLine {function number what : String} (h : isIdentifier function = true)
    (hnumber : Plain number) (hwhat : Plain what) (count : Nat) :
    Plain (mexCountLine function number what count) := by
  have hinteger := fun n => (inline_integer n).plain
  have hfunction : Plain function := (inline_identifier h).plain
  delta mexCountLine
  simp only [toString_text, avoids_append, plain_mexError, hinteger, hfunction, hnumber, hwhat,
    and_true]
  decide

/-- The gateway is for another compiler. -/
theorem compiles_mexLines {f : SymbolicFunction α} (hname : isIdentifier f.name = true)
    (h : macros.contains "MATLAB_MEX_FILE" = false) :
    Compiles macros ((mexLines f).map String.toList) macros [] := by
  have hdirective : directive? "#ifdef MATLAB_MEX_FILE".toList =
      some (some (.ifDefined "MATLAB_MEX_FILE")) ∧ '\n' ∉ "#ifdef MATLAB_MEX_FILE".toList :=
    ⟨by cbv, by decide⟩
  have hinteger := fun n => (inline_integer n).plain
  have hfunction : Plain f.name := (inline_identifier hname).plain
  -- between the two directives there is one function
  have hsplit : mexLines f = [""] ++ "#ifdef MATLAB_MEX_FILE" :: ((["#include <mex.h>", "",
      "void mexFunction(int resc, mxArray *resv[], int argc, const mxArray *argv[]) \x7b",
      s!"  const {realType}* arg[{max f.inputs.length 1}];",
      s!"  {realType}* res[{max f.outputs.length 1}];",
      mexCountLine f.name "argc" "input" f.inputs.length,
      mexCountLine f.name "resc" "output" f.outputs.length] ++
      (f.inputs.zipIdx.flatMap fun p => mexInputLines f.name p.2 p.1) ++
      (f.outputs.zipIdx.flatMap fun p => mexOutputLines p.2 p.1) ++
      [s!"  if ({f.name}(arg, res, 0, 0, 0)) {mexError}" ++
        s!"\"Evaluation of \\\"{f.name}\\\" failed.\");", "\x7d"]) ++ ["#endif"]) := by
    simp [mexLines]
  rw [hsplit, List.map_append]
  refine compiles_empty.append (compiles_excluded hdirective.1 hdirective.2 h ?_)
  have hdeclarations : Plain s!"  const {realType}* arg[{max f.inputs.length 1}];" ∧
      Plain s!"  {realType}* res[{max f.outputs.length 1}];" := by
    simp only [toString_text, avoids_append, hinteger, and_true]
    decide
  have hinputs : ∀ line ∈ f.inputs.zipIdx.flatMap fun p => mexInputLines f.name p.2 p.1,
      Plain line := by
    intro line hline
    obtain ⟨p, _, hline⟩ := List.mem_flatMap.mp hline
    exact plain_mexInputLines hname p.2 p.1 line hline
  have houtputs : ∀ line ∈ f.outputs.zipIdx.flatMap fun p => mexOutputLines p.2 p.1,
      Plain line := by
    intro line hline
    obtain ⟨p, _, hline⟩ := List.mem_flatMap.mp hline
    exact plain_mexOutputLines p.2 p.1 line hline
  have hfailure : Plain (s!"  if ({f.name}(arg, res, 0, 0, 0)) {mexError}" ++
      s!"\"Evaluation of \\\"{f.name}\\\" failed.\");") := by
    simp only [toString_text, avoids_append, plain_mexError, hfunction, and_true]
    decide
  simp only [List.forall_mem_append, List.forall_mem_cons]
  refine ⟨⟨⟨⟨Or.inl trivial, Or.inr (by decide), Or.inr (by decide), Or.inr hdeclarations.1,
    Or.inr hdeclarations.2, Or.inr (plain_mexCountLine hname (by decide) (by decide) _),
    Or.inr (plain_mexCountLine hname (by decide) (by decide) _), List.forall_mem_nil _⟩,
    fun line hline => Or.inr (hinputs line hline)⟩,
    fun line hline => Or.inr (houtputs line hline)⟩,
    Or.inr hfailure, Or.inr (by decide), List.forall_mem_nil _⟩

theorem compiles_gateway (options : CodeOptions) {f : SymbolicFunction α}
    (hname : isIdentifier f.name = true) (h : macros.contains "MATLAB_MEX_FILE" = false) :
    Compiles macros ((if options.gateway = .mex then mexLines f else []).map String.toList) macros
      [] := by
  split
  · exact compiles_mexLines hname h
  · exact compiles_nil

/-! ## Arrays -/

/-- The arrays of the patterns of a function. -/
def arrayDefinitions (f : SymbolicFunction α) : List Definition :=
  f.shapes.zipIdx.map fun (shape, k) => arrayDefinition k (densePattern shape)

theorem densePattern_ne_nil (shape : Shape) : densePattern shape ≠ [] := by
  rw [densePattern]
  exact List.cons_ne_nil _ _

/-- The lines of the arrays are compiled as their definitions. -/
theorem compiles_arrays (f : SymbolicFunction α) : Compiles macros
    ((f.shapes.zipIdx.map fun (shape, k) => patternLine k shape).map String.toList) macros
    ((arrayDefinitions f).flatMap Definition.pieces) ∧
      ∀ d ∈ arrayDefinitions f, d.Complete := by
  have hshapes : ∀ p ∈ f.shapes.zipIdx, Compiles macros
      ([patternLine p.2 p.1].map String.toList) macros
        (arrayDefinition p.2 (densePattern p.1)).pieces ∧
      (arrayDefinition p.2 (densePattern p.1)).Complete :=
    fun p _ => compiles_array p.2 (densePattern_ne_nil p.1)
  have hall := compiles_flatMap fun p hp => (hshapes p hp).1
  rw [arrayDefinitions, List.flatMap_map, List.map_map, List.map_eq_flatMap, List.forall_mem_map]
  exact ⟨hall, fun p hp => (hshapes p hp).2⟩

/-! ## The whole source -/

variable [Written α]

/-- The function that has the kernel in it. -/
def kernelDefinition (floats : FloatWidth) (kernel : Kernel α) : Definition :=
  ⟨headTokens "static int" kernelName evaluationParameters, kernelBody floats kernel⟩

/-- The function that calls the kernel. -/
def entryDefinition (function : String) : Definition :=
  ⟨headTokens "int" function evaluationParameters,
    (tokens s!"  return {kernelName}(arg, res, iw, w, mem);").map .token⟩

/-- The definitions in the source of a function. -/
def sourceDefinitions (floats : FloatWidth) (f : SymbolicFunction α) (kernel : Kernel α) :
    List Definition :=
  arrayDefinitions f ++ ([kernelDefinition floats kernel] ++ ([entryDefinition f.name] ++
    Query.all.map (queryDefinition f)))

/-- Generated code is the source of a function with its kernel. -/
theorem exists_source_of_ok {options : CodeOptions} {f : SymbolicFunction α} {code : GeneratedCode}
    (h : generateCode options f = .ok code) : ∃ kernel, Kernel.ofFunction f = .ok kernel ∧
      code.source = textOfLines (sourceLines options f kernel) := by
  cases hkernel : Kernel.ofFunction f with
  | ok kernel => exact ⟨kernel, rfl, source_of_ok h hkernel⟩
  | error cause =>
      rw [generateCode, hkernel] at h
      cases hoptions : options.check <;> rw [hoptions] at h <;> cases h

theorem compiles_banner : Compiles macros ([banner].map String.toList) macros [] :=
  compiles_lines (List.forall_mem_singleton.mpr (by decide)) (by cbv)

theorem compiles_mathHeader :
    Compiles macros (["", "#include <math.h>", ""].map String.toList) macros [] := by
  have hinclude : directive? "#include <math.h>".toList = some (some .include) ∧
      '\n' ∉ "#include <math.h>".toList := ⟨by cbv, by decide⟩
  exact compiles_empty.append ((compiles_include hinclude.1 hinclude.2).append compiles_empty)

theorem compiles_entry {function : String} (h : isIdentifier function = true) :
    Compiles macros ((functionLines (evaluationHead function)
      [s!"  return {kernelName}(arg, res, iw, w, mem);"]).map String.toList) macros
        (entryDefinition function).pieces ∧ (entryDefinition function).Complete := by
  have hplain : Plain s!"  return {kernelName}(arg, res, iw, w, mem);" := by decide
  have hlex : (lex (s!"  return {kernelName}(arg, res, iw, w, mem);").toList).isSome = true := by
    cbv
  have hlevel : level 0 ((tokens s!"  return {kernelName}(arg, res, iw, w, mem);").map .token) =
      some 0 := by cbv
  rw [evaluationHead_eq]
  refine ⟨isHead_evaluation.compiles h (List.forall_mem_singleton.mpr hplain) ?_,
    isHead_evaluation.complete hlevel⟩
  rw [List.map_singleton, textPieces_singleton, linePieces_of_lex (lex_tokens _ hlex)]

variable [LawfulWritten α]

theorem compiles_kernel (floats : FloatWidth) (kernel : Kernel α) :
    Compiles macros ((functionLines ("static " ++ evaluationHead kernelName)
      (bodyLines floats kernel)).map String.toList) macros
        (kernelDefinition floats kernel).pieces ∧ (kernelDefinition floats kernel).Complete := by
  obtain ⟨hpieces, hlevel, _⟩ := kernelBody_ok floats kernel
  rw [static_evaluationHead]
  exact ⟨isHead_kernel.compiles (by decide) (bodyLines_ok floats kernel).2 hpieces,
    isHead_kernel.complete hlevel⟩

omit [Written α] [LawfulWritten α] in
theorem compiles_queries {f : SymbolicFunction α} (hname : isIdentifier f.name = true) :
    Compiles macros ((Query.all.flatMap fun query => "" :: queryLines f query).map String.toList)
      macros ((Query.all.map (queryDefinition f)).flatMap Definition.pieces) := by
  rw [List.map_flatMap, List.flatMap_map]
  exact compiles_flatMap fun query _ => compiles_empty.append (compiles_query f hname query).1

/-- The parts of a source in their order. -/
theorem compiles_source (options : CodeOptions) {f : SymbolicFunction α} (kernel : Kernel α)
    (hname : isIdentifier f.name = true) :
    Compiles [] ((sourceLines options f kernel).map String.toList) unitMacros
      ((sourceDefinitions options.floats f kernel).flatMap Definition.pieces) := by
  have hcpp : unitMacros.contains "__cplusplus" = false ∧
      unitMacros.contains "MATLAB_MEX_FILE" = false := by decide
  have hstart := (((compiles_banner.append (compiles_linkage rfl).1).append
    compiles_mathHeader).append (compiles_numberTypeLines options)).append compiles_empty
  have hmiddle := (((hstart.append (compiles_arrays f).1).append compiles_empty).append
    (compiles_description hname)).append (compiles_kernel options.floats kernel).1
  have hend := (((hmiddle.append compiles_empty).append (compiles_entry hname).1).append
    (compiles_queries hname)).append (compiles_gateway options hname hcpp.2)
  have hsource := (hend.append compiles_empty).append (compiles_linkage hcpp.1).2
  simp only [← List.map_append, List.nil_append, List.append_nil] at hsource
  have hpieces : (sourceDefinitions options.floats f kernel).flatMap Definition.pieces =
      (arrayDefinitions f).flatMap Definition.pieces ++
        (kernelDefinition options.floats kernel).pieces ++
        (entryDefinition f.name).pieces ++
        (Query.all.map (queryDefinition f)).flatMap Definition.pieces := by
    simp only [sourceDefinitions, List.flatMap_append, List.flatMap_singleton, List.append_assoc]
  rw [hpieces]
  exact hsource

/-- **The source of a function is a unit**: its arrays, the kernel, the entry point and the
queries, in this order. -/
theorem readUnit_source (options : CodeOptions) {f : SymbolicFunction α} (kernel : Kernel α)
    (hname : isIdentifier f.name = true) :
    readUnit (textOfLines (sourceLines options f kernel)) =
      some ⟨unitMacros, sourceDefinitions options.floats f kernel⟩ := by
  refine readUnit_eq (toList_textOfLines_map _) (compiles_source options kernel hname) ?_
  obtain ⟨_, harrays⟩ : Compiles unitMacros _ unitMacros _ ∧ _ := compiles_arrays f
  obtain ⟨_, hkernel⟩ : Compiles unitMacros _ unitMacros _ ∧ _ :=
    compiles_kernel options.floats kernel
  obtain ⟨_, hentry⟩ : Compiles unitMacros _ unitMacros _ ∧ _ := compiles_entry hname
  have hquery : ∀ query, Compiles unitMacros _ unitMacros _ ∧ _ := compiles_query f hname
  simp only [sourceDefinitions, List.forall_mem_append, List.forall_mem_singleton,
    List.forall_mem_map]
  exact ⟨harrays, hkernel, hentry, fun query _ => (hquery query).2⟩

end Code

end ExplicitOde
