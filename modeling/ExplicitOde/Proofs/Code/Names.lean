import ExplicitOde.Model.Sensitivity
import ExplicitOde.Proofs.Code.Kernel
import ExplicitOde.Proofs.Code.Unit

/-!
# Names that units define

A unit defines the entry point and the queries for others, and everything else for itself.

* **Units of different functions can be linked**: what ends the name of a function of a model and of
  its queries is never the end of another of these texts, so that a name says which model and which
  function it belongs to, whatever the model is called.
* **Inside one unit nothing clashes**: every name for others has more underscores than there are in
  a name that is private, in a macro or in a word of the language.
-/

namespace ExplicitOde

namespace Code

open C

variable {α : Type}

/-! ## Names that are declared -/

/-- The name of a function is the first word before a parenthesis. -/
theorem IsHead.declared {type parameters : String} (h : IsHead type parameters) (name : String) :
    declared (headTokens type name parameters) = some name := by
  obtain ⟨_, _, _, htype, hopens, _⟩ := h.lex_eq
  obtain ⟨us, hus⟩ := List.head?_eq_some_iff.mp hopens
  rw [headTokens, hus]
  exact declared_append htype name us

theorem declared_array (index : Nat) (entries : List Nat) :
    declared (arrayDefinition index entries).head = some (patternName index) := by
  have htype : tokens arrayType = [.word "static", .word "const", .word intType] := by cbv
  rw [arrayDefinition, htype]
  rfl

variable [Written α] {f : SymbolicFunction α}

/-- The arrays and the kernel are private, the entry point and the queries are not. -/
theorem isStatic_sourceDefinitions (floats : FloatWidth) (f : SymbolicFunction α)
    (kernel : Kernel α) :
    (∀ d ∈ arrayDefinitions f, d.isStatic = true) ∧
      (kernelDefinition floats kernel).isStatic = true ∧
      (entryDefinition f.name).isStatic = false ∧
      ∀ query, (queryDefinition f query).isStatic = false := by
  -- the first word decides
  have hfirst : ∀ {type first : String} (rest : List C.Token),
      (tokens type).head? = some (.word first) →
      ((tokens type ++ rest).head? == some (.word "static")) = (first == "static") := by
    intro type first rest h
    rw [List.head?_append, h]
    by_cases hstatic : first = "static" <;> simp [hstatic]
  have htypes : (tokens arrayType).head? = some (.word "static") ∧
      (tokens "static int").head? = some (.word "static") ∧
      (tokens "int").head? = some (.word "int") := ⟨by cbv, by cbv, by cbv⟩
  have harray : ∀ d ∈ arrayDefinitions f, d.isStatic = true := by
    intro d hd
    obtain ⟨p, _, rfl⟩ := List.mem_map.mp hd
    exact hfirst _ htypes.1
  refine ⟨harray, hfirst _ htypes.2.1, hfirst _ htypes.2.2, fun query => ?_⟩
  have hquery : ∃ first, (tokens query.resultType).head? = some (.word first) ∧
      (first == "static") = false := by
    cases query with
    | inputCount | outputCount => exact ⟨intType, by cbv, by decide⟩
    | workspace => exact ⟨"int", by cbv, by decide⟩
    | inputName | outputName | inputPattern | outputPattern =>
        exact ⟨"const", by cbv, by decide⟩
  obtain ⟨first, hhead, hne⟩ := hquery
  exact (hfirst _ hhead).trans hne

/-- **The names for others are those of the entry point and of the queries.** -/
theorem external_sourceDefinitions (floats : FloatWidth) (kernel : Kernel α) :
    TranslationUnit.external ⟨unitMacros, sourceDefinitions floats f kernel⟩ =
      externalNames f.name := by
  obtain ⟨harray, hkernel, hentry, hquery⟩ := isStatic_sourceDefinitions floats f kernel
  have hprivate : (arrayDefinitions f).filter (fun d => !d.isStatic) = [] := by
    simpa [List.filter_eq_nil_iff] using harray
  have hpublic : (Query.all.map (queryDefinition f)).filter (fun d => !d.isStatic) =
      Query.all.map (queryDefinition f) := by
    simp [List.filter_eq_self, hquery]
  have hnames : (Query.all.map (queryDefinition f)).filterMap (fun d => declared d.head) =
      Query.all.map fun query => query.name f.name := by
    rw [List.filterMap_map, ← List.filterMap_eq_map]
    exact List.filterMap_congr fun query _ => query.isHead.declared _
  have hfunction : declared (entryDefinition f.name).head = some f.name :=
    isHead_evaluation.declared _
  rw [TranslationUnit.external, sourceDefinitions, List.filter_append, List.filter_append,
    List.filter_append, hprivate, hpublic, List.filter_cons_of_neg (by simp [hkernel]),
    List.filter_cons_of_pos (by simp [hentry]), List.filter_nil, List.nil_append, List.nil_append,
    List.singleton_append, List.filterMap_cons_some (f := fun d : Definition => declared d.head)
      hfunction, hnames]
  rfl

/-- The private names are those of the arrays and of the kernel. -/
theorem internal_sourceDefinitions (floats : FloatWidth) (kernel : Kernel α) :
    TranslationUnit.internal ⟨unitMacros, sourceDefinitions floats f kernel⟩ =
      (List.range f.shapes.length).map patternName ++ [kernelName] := by
  obtain ⟨harray, hkernel, hentry, hquery⟩ := isStatic_sourceDefinitions floats f kernel
  have hprivate : (arrayDefinitions f).filter Definition.isStatic = arrayDefinitions f :=
    List.filter_eq_self.mpr harray
  have hpublic : (Query.all.map (queryDefinition f)).filter Definition.isStatic = [] := by
    simp [List.filter_eq_nil_iff, hquery]
  have hnames : (arrayDefinitions f).filterMap (fun d => declared d.head) =
      (List.range f.shapes.length).map patternName := by
    rw [arrayDefinitions, List.filterMap_map, ← map_zipIdx, ← List.filterMap_eq_map]
    exact List.filterMap_congr fun p _ => declared_array p.2 _
  have hfunction : declared (kernelDefinition floats kernel).head = some kernelName :=
    isHead_kernel.declared _
  rw [TranslationUnit.internal, sourceDefinitions, List.filter_append, List.filter_append,
    List.filter_append, hprivate, hpublic, List.filter_cons_of_pos hkernel,
    List.filter_cons_of_neg (by simp [hentry]), List.filter_nil, List.append_nil, List.append_nil,
    List.filterMap_append, hnames,
    List.filterMap_cons_some (f := fun d : Definition => declared d.head) hfunction]
  rfl

/-! ## What names end in -/

/-- What the names of a function and of its queries end in, behind the name of the model. -/
def nameEndings (kind : FunctionKind) : List String :=
  ("" :: Query.all.map Query.ending).map fun ending => "_" ++ kind.ending ++ ending

theorem externalNames_eq (kind : FunctionKind) (model : String) :
    externalNames (kind.functionName model) = (nameEndings kind).map (model ++ ·) := by
  rw [externalNames, nameEndings, FunctionKind.functionName]
  simp [Query.name, String.append_assoc]

/-- No ending is the end of another. -/
theorem nameEndings_suffix {kind kind' : FunctionKind} {a b : String} (ha : a ∈ nameEndings kind)
    (hb : b ∈ nameEndings kind') (h : a.toList <:+ b.toList) : kind = kind' ∧ a = b := by
  have hall : ∀ kind ∈ FunctionKind.all, ∀ kind' ∈ FunctionKind.all, ∀ a ∈ nameEndings kind,
      ∀ b ∈ nameEndings kind', a.toList <:+ b.toList → kind = kind' ∧ a = b := by decide
  have hmem : ∀ kind : FunctionKind, kind ∈ FunctionKind.all := by
    intro kind
    cases kind <;> decide
  exact hall kind (hmem kind) kind' (hmem kind') a ha b hb h

/-- **A name says which model and which function it belongs to.** -/
theorem eq_of_mem_externalNames {model model' name : String} {kind kind' : FunctionKind}
    (h : name ∈ externalNames (kind.functionName model))
    (h' : name ∈ externalNames (kind'.functionName model')) : model = model' ∧ kind = kind' := by
  rw [externalNames_eq] at h h'
  obtain ⟨a, ha, rfl⟩ := List.mem_map.mp h
  obtain ⟨b, hb, heq⟩ := List.mem_map.mp h'
  have hlists : model'.toList ++ b.toList = model.toList ++ a.toList := by
    rw [← String.toList_append, ← String.toList_append, heq]
  have hboth : kind = kind' ∧ a = b := by
    have hright : b.toList <:+ model.toList ++ a.toList := ⟨_, hlists⟩
    rcases List.suffix_or_suffix_of_suffix (List.suffix_append model.toList a.toList) hright with
      hsuffix | hsuffix
    · exact nameEndings_suffix ha hb hsuffix
    · obtain ⟨hkind, hending⟩ := nameEndings_suffix hb ha hsuffix
      exact ⟨hkind.symm, hending.symm⟩
  obtain ⟨rfl, rfl⟩ := hboth
  exact ⟨(String.toList_inj.mp (List.append_cancel_right hlists)).symm, rfl⟩

/-! ## Underscores -/

/-- How many underscores there are in a text. -/
def underscores (text : String) : Nat := text.toList.count '_'

theorem underscores_append (a b : String) :
    underscores (a ++ b) = underscores a + underscores b := by
  rw [underscores, String.toList_append, List.count_append]
  rfl

/-- Names for others have at least three underscores. -/
theorem underscores_external {kind : FunctionKind} {model name : String}
    (h : name ∈ externalNames (kind.functionName model)) : 2 < underscores name := by
  have hall : ∀ kind ∈ FunctionKind.all, ∀ a ∈ nameEndings kind, 2 < underscores a := by
    decide
  have hmem : kind ∈ FunctionKind.all := by cases kind <;> decide
  rw [externalNames_eq] at h
  obtain ⟨a, ha, rfl⟩ := List.mem_map.mp h
  have hending := hall kind hmem a ha
  rw [underscores_append]
  omega

/-- The names of arrays have one underscore. -/
theorem underscores_patternName (k : Nat) : underscores (patternName k) ≤ 2 := by
  have hdigits : (toString k).toList.count '_' = 0 := by
    rw [List.count_eq_zero, Nat.toString_eq_ofList_toDigits, String.toList_ofList]
    exact fun hmem => absurd ((digits_toDigits k).2 _ hmem) (by decide)
  have hname : patternName k = "odesens_s" ++ toString k := rfl
  have hword : underscores "odesens_s" = 1 := by decide
  rw [hname, underscores_append, hword, underscores, hdigits]
  omega

/-- The queries about a function and the function itself have different names. -/
theorem nodup_externalNames (function : String) : (externalNames function).Nodup := by
  have hnames : externalNames function =
      ("" :: Query.all.map Query.ending).map (function ++ ·) := by
    simp [externalNames, Query.name]
  have hendings : ("" :: Query.all.map Query.ending).Nodup := by decide
  rw [hnames]
  exact hendings.map fun a b h => by
    have hlists := congrArg String.toList h
    rw [String.toList_append, String.toList_append] at hlists
    exact String.toList_inj.mp (List.append_cancel_left hlists)

theorem isIdentifier_functionName {model : String} (h : isIdentifier model = true)
    (kind : FunctionKind) : isIdentifier (kind.functionName model) = true := by
  have hending : ("_" ++ kind.ending).toList.all isNameRest = true := by
    cases kind <;> decide
  rw [FunctionKind.functionName, String.append_assoc]
  exact isIdentifier_append h (List.all_eq_true.mp hending)

/-! ## Linking -/

/-- **The names of a unit do not clash.** Its names for others are different identifiers and no
words of the language, and neither private names nor macros of the unit are among them. -/
theorem external_apart {model : String} {kind : FunctionKind} (hmodel : isIdentifier model = true)
    (hf : f.name = kind.functionName model) (floats : FloatWidth) (kernel : Kernel α) :
    let unit : TranslationUnit := ⟨unitMacros, sourceDefinitions floats f kernel⟩
    unit.external.Nodup ∧ ∀ name ∈ unit.external, isIdentifier name = true ∧ name ∉ keywords ∧
      name ∉ unit.internal ∧ name ∉ unit.macros := by
  intro unit
  have hfunction : isIdentifier f.name = true := hf ▸ isIdentifier_functionName hmodel kind
  have hexternal : unit.external = externalNames f.name := external_sourceDefinitions floats kernel
  have hinternal := internal_sourceDefinitions (f := f) floats kernel
  refine ⟨hexternal ▸ nodup_externalNames f.name, fun name hname => ?_⟩
  rw [hexternal] at hname
  -- names for others have more underscores than keywords, private names and macros
  have hmany : 2 < underscores name := underscores_external (hf ▸ hname)
  have hfew : ∀ {names : List String}, (∀ w ∈ names, underscores w ≤ 2) → name ∉ names :=
    fun h hmem => Nat.not_lt_of_le (h name hmem) hmany
  have hmacros : ∀ w ∈ unitMacros, underscores w ≤ 2 := by decide
  refine ⟨?_, hfew (by decide), hinternal ▸ hfew ?_, hfew hmacros⟩
  · rcases List.mem_cons.mp hname with rfl | hname
    · exact hfunction
    · obtain ⟨query, _, rfl⟩ := List.mem_map.mp hname
      exact query.isIdentifier_name hfunction
  · refine List.forall_mem_append.mpr ⟨fun w hw => ?_, List.forall_mem_singleton.mpr (by decide)⟩
    obtain ⟨k, _, rfl⟩ := List.mem_map.mp hw
    exact underscores_patternName k

/-- **Units of different functions can be linked.** Whatever the functions compute and whatever the
options are, the source of a function of a model is a unit that defines the entry point and seven
queries for others. No such name is defined by the unit of another function or of another model,
and inside one unit these names are different identifiers, apart from all others. -/
theorem readUnit_external [LawfulWritten α] {model model' : String} {kind kind' : FunctionKind}
    {f f' : SymbolicFunction α} {options options' : CodeOptions} {code code' : GeneratedCode}
    (hmodel : isIdentifier model = true) (hmodel' : isIdentifier model' = true)
    (hf : f.name = kind.functionName model) (hf' : f'.name = kind'.functionName model')
    (hcode : generateCode options f = .ok code) (hcode' : generateCode options' f' = .ok code') :
    ∃ unit unit', readUnit code.source = some unit ∧ readUnit code'.source = some unit' ∧
      ((model, kind) ≠ (model', kind') → unit.external.Disjoint unit'.external) ∧
      unit.external = ["", "_n_in", "_n_out", "_name_in", "_name_out", "_sparsity_in",
        "_sparsity_out", "_work"].map (f.name ++ ·) ∧
      unit.internal = (List.range f.shapes.length).map patternName ++ [kernelName] ∧
      unit.macros = [realType, intType] ∧
      unit.external.Nodup ∧ ∀ name ∈ unit.external, isIdentifier name = true ∧ name ∉ keywords ∧
        name ∉ unit.internal ∧ name ∉ unit.macros := by
  obtain ⟨kernel, _, hsource⟩ := exists_source_of_ok hcode
  obtain ⟨kernel', _, hsource'⟩ := exists_source_of_ok hcode'
  have hunit := readUnit_source options kernel (hf ▸ isIdentifier_functionName hmodel kind)
  have hunit' := readUnit_source options' kernel' (hf' ▸ isIdentifier_functionName hmodel' kind')
  have hexternal := external_sourceDefinitions (f := f) options.floats kernel
  have hexternal' := external_sourceDefinitions (f := f') options'.floats kernel'
  refine ⟨_, _, hsource ▸ hunit, hsource' ▸ hunit', fun hne => ?_, ?_,
    internal_sourceDefinitions options.floats kernel, rfl,
    external_apart hmodel hf options.floats kernel⟩
  · rw [hexternal, hexternal', hf, hf']
    intro name hname hname'
    obtain ⟨rfl, rfl⟩ := eq_of_mem_externalNames hname hname'
    exact hne rfl
  · rw [hexternal]
    simp [externalNames, Query.all, Query.name, Query.ending]

/-! A function of one number, which is its square. -/

/-- The expression of the square. -/
def squared : Expr Float := .binary 1 .mul (.symbol 0 "x") (.symbol 0 "x")

/-- The function. -/
def square : SymbolicFunction Float :=
  ⟨"square", .sx, [ExprMatrix.column .sx [.symbol 0 "x"]], [ExprMatrix.column .sx [squared]]⟩

theorem square_accepted : SymbolicFunction.Accepted square.inputs square.outputs where
  symbolic := by decide
  distinct := by decide
  closed := List.forall_mem_singleton.mpr <| Expr.over_iff.mp
    ⟨List.mem_cons_self, List.mem_cons_self⟩

/-- The square under a name. -/
def squareCalled (name : String) : SymbolicFunction Float := { square with name }

/-- The name of the second model is that of a query about the function of the first. -/
theorem readUnit_external_square : ∃ (code code' : GeneratedCode) (unit unit' : TranslationUnit),
    generateCode {} (squareCalled "odesens_f0_expl_ode_fun") = .ok code ∧
    generateCode {} (squareCalled "odesens_f0_expl_ode_fun_n_in_expl_ode_fun") = .ok code' ∧
    readUnit code.source = some unit ∧ readUnit code'.source = some unit' ∧
    "odesens_f0_expl_ode_fun_n_in" ∈ unit.external ∧
    "odesens_f0_expl_ode_fun_n_in" ∉ unit'.external := by
  obtain ⟨kernel, hkernel⟩ := Kernel.exists_ofFunction
    (f := squareCalled "odesens_f0_expl_ode_fun") square_accepted
  obtain ⟨kernel', hkernel'⟩ := Kernel.exists_ofFunction
    (f := squareCalled "odesens_f0_expl_ode_fun_n_in_expl_ode_fun") square_accepted
  have hcode := generateCode_eq (rfl : CodeOptions.check {} = .ok ()) hkernel
  have hcode' := generateCode_eq (rfl : CodeOptions.check {} = .ok ()) hkernel'
  have hname : (squareCalled "odesens_f0_expl_ode_fun").name =
      FunctionKind.value.functionName "odesens_f0" := rfl
  have hname' : (squareCalled "odesens_f0_expl_ode_fun_n_in_expl_ode_fun").name =
      FunctionKind.value.functionName "odesens_f0_expl_ode_fun_n_in" := rfl
  obtain ⟨unit, unit', hunit, hunit', hdisjoint, hexternal, _⟩ :=
    readUnit_external (by decide) (by decide) hname hname' hcode hcode'
  have hmem : "odesens_f0_expl_ode_fun_n_in" ∈ unit.external := by
    rw [hexternal]
    decide
  exact ⟨_, _, unit, unit', hcode, hcode', hunit, hunit', hmem,
    fun hmem' => hdisjoint (by decide) hmem hmem'⟩

end Code

end ExplicitOde
