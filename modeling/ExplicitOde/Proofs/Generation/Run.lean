import ExplicitOde.Proofs.Generation.ModelPlan

/-!
# What a run leaves

A run goes through stages: the version of the engine, the declaration and its model, the functions
of the model, the directories, the code, the files. Nothing is written before the functions are
there, and from then on a run is the plan of its model, or it ends with the directories:
`Subject.generate_ends`. From this follows, for every way in which a run can end, **what it leaves
in the file system**. The ways are those that a file system knows: that a permission is missing or
that a write breaks off is not among them.

A run that succeeded can be repeated, with the symbols built again, and leaves everything as it is.
-/

namespace ExplicitOde

open Relator (BiUnique)
open FileSystem SymbolicFunction

variable {α : Type} [Scalar α] [Written α] {config : Configuration} {files after : FileSystem}
  {n next : Nat}

/-! ## Stages -/

section Stages

variable {m : Model α} {text : String}

theorem checkVersion_of_mem (h : engineVersion ∈ config.versions) :
    checkVersion config.versions = .ok () :=
  if_pos (List.elem_iff.mpr h)

theorem checkVersion_of_notMem (h : engineVersion ∉ config.versions) :
    checkVersion config.versions = .error (.version engineVersion config.versions) :=
  if_neg fun hmem => h (List.elem_iff.mp hmem)

theorem generateModel_of_notMem (h : engineVersion ∉ config.versions) :
    generateModel config m files n =
      ((.error (.version engineVersion config.versions), files), n) := by
  rw [generateModel, prepare, checkVersion_of_notMem h]
  rfl

theorem generateModel_eq (h : engineVersion ∈ config.versions) :
    generateModel config m files n =
      match m.sensitivities n with
      | (.error cause, next) => ((.error (.model cause), files), next)
      | (.ok s, next) => (emit config m.name s.toList files, next) := by
  have hprepare : prepare config m n = (m.sensitivities.adapt GenerationError.model) n := by
    rw [prepare, checkVersion_of_mem h]
    rfl
  rw [adapt_eq] at hprepare
  rcases hs : m.sensitivities n with ⟨cause | s, next⟩
  · rw [hs] at hprepare
    exact build_bind_run hprepare
  · rw [hs] at hprepare
    exact build_bind_run hprepare

theorem generateText_of_notMem (h : engineVersion ∉ config.versions) :
    generateText α config text files n =
      ((.error (.version engineVersion config.versions), files), n) := by
  rw [generateText, prepareText, checkVersion_of_notMem h]
  rfl

theorem generateText_eq (h : engineVersion ∈ config.versions) :
    generateText α config text files n =
      match (Declaration.modelOfText text : Attempt DescriptionError (Model α)) n with
      | (.error cause, next) => ((.error (.ofDescription cause), files), next)
      | (.ok m, next) => generateModel config m files next := by
  have hprepare : (prepareText config text : Attempt GenerationError (Model α)) n =
      ((Declaration.modelOfText text).adapt GenerationError.ofDescription) n := by
    rw [prepareText, checkVersion_of_mem h]
    rfl
  rw [adapt_eq] at hprepare
  rcases hmodel : (Declaration.modelOfText text : Attempt DescriptionError (Model α)) n with
    ⟨cause | m, next⟩
  · rw [hmodel] at hprepare
    exact build_bind_run hprepare
  · rw [hmodel] at hprepare
    exact build_bind_run hprepare

end Stages

/-! ## Subjects -/

/-- What a run can be about: a model, or a text that declares one. -/
inductive Subject (α : Type) where
  | model (m : Model α)
  | text (text : String)

namespace Subject

/-- A run. -/
def generate (config : Configuration) : Subject α → FileSystem →
    Build (Except GenerationError Emitted × FileSystem)
  | model m => generateModel config m
  | text t => generateText α config t

/-- The functions of a model, together with it. -/
def functionsOf (m : Model α) :
    Attempt GenerationError (Model α × Sensitivities (SymbolicFunction α)) := do
  let s ← m.sensitivities.adapt .model
  return (m, s)

/-- The model that a run is about, and its functions. -/
def functions : Subject α →
    Attempt GenerationError (Model α × Sensitivities (SymbolicFunction α))
  | model m => functionsOf m
  | text t => do
    let m ← (Declaration.modelOfText t).adapt .ofDescription
    functionsOf m

/-- The nodes of a model exist together. A text has no nodes. -/
def Coherent : Subject α → Prop
  | model m => m.Coherent
  | text _ => True

variable {subject : Subject α} {m : Model α} {s : Sensitivities (SymbolicFunction α)}

omit [Written α] in
theorem functionsOf_eq (m : Model α) (n : Nat) :
    functionsOf m n = match m.sensitivities n with
      | (.error cause, next) => (.error (.model cause), next)
      | (.ok s, next) => (.ok (m, s), next) := by
  have hadapt := adapt_eq m.sensitivities GenerationError.model n
  rcases hs : m.sensitivities n with ⟨cause | s, next⟩
  · rw [hs] at hadapt
    exact bind_run_error hadapt
  · rw [hs] at hadapt
    exact bind_run hadapt

omit [Written α] in
theorem functions_text (t : String) (n : Nat) :
    (text t : Subject α).functions n =
      match (Declaration.modelOfText t : Attempt DescriptionError (Model α)) n with
      | (.error cause, next) => (.error (.ofDescription cause), next)
      | (.ok m, next) => functionsOf m next := by
  have hadapt := adapt_eq (Declaration.modelOfText t : Attempt DescriptionError (Model α))
    GenerationError.ofDescription n
  rcases hm : (Declaration.modelOfText t : Attempt DescriptionError (Model α)) n with
    ⟨cause | m, next⟩
  · rw [hm] at hadapt
    exact bind_run_error hadapt
  · rw [hm] at hadapt
    exact bind_run hadapt

/-- A version that is not accepted is found first. -/
theorem generate_of_notMem (h : engineVersion ∉ config.versions) :
    subject.generate config files n =
      ((.error (.version engineVersion config.versions), files), n) := by
  cases subject with
  | model m => exact generateModel_of_notMem h
  | text t => exact generateText_of_notMem h

/-- **Nothing is written before all functions are there.** -/
theorem generate_eq (h : engineVersion ∈ config.versions) :
    subject.generate config files n =
      match subject.functions n with
      | (.error e, next) => ((.error e, files), next)
      | (.ok (m, s), next) => (emit config m.name s.toList files, next) := by
  have hmodel : ∀ (m : Model α) (n : Nat), generateModel config m files n =
      match functionsOf m n with
      | (.error e, next) => ((.error e, files), next)
      | (.ok (m, s), next) => (emit config m.name s.toList files, next) := by
    intro m n
    rw [generateModel_eq h, functionsOf_eq]
    rcases m.sensitivities n with ⟨_ | _, _⟩ <;> rfl
  cases subject with
  | model m => exact hmodel m n
  | text t =>
      rw [generate, generateText_eq h, functions_text]
      rcases (Declaration.modelOfText t : Attempt DescriptionError (Model α)) n with
        ⟨_ | m, next⟩
      · rfl
      · exact hmodel m next

omit [Written α] in
/-- A subject without functions has a fault of its own. -/
theorem functions_error {e : GenerationError} (h : subject.functions n = (.error e, next)) :
    (∃ cause, e = .model cause) ∨ ∃ cause, e = .declaration cause := by
  have hmodel : ∀ {m : Model α} {n : Nat}, functionsOf m n = (.error e, next) →
      ∃ cause, e = .model cause := by
    intro m n h
    rw [functionsOf_eq] at h
    split at h
    · injection h with h
      injection h with h
      exact ⟨_, h.symm⟩
    · injection h with h
      injection h
  cases subject with
  | model m => exact Or.inl (hmodel h)
  | text t =>
      rw [functions_text] at h
      split at h
      · rename_i cause _ _
        injection h with h
        injection h with h
        cases cause with
        | declaration cause => exact Or.inr ⟨cause, h.symm⟩
        | model cause => exact Or.inl ⟨cause, h.symm⟩
      · exact Or.inl (hmodel h)

omit [Written α] in
theorem functionsOf_ok {m' : Model α} (h : functionsOf m n = (.ok (m', s), next)) :
    m' = m ∧ m.sensitivities n = (.ok s, next) := by
  rw [functionsOf_eq] at h
  split at h
  · injection h with h
    injection h
  · rename_i s' last hs
    injection h with h hnext
    injection h with h
    injection h with hm hs'
    exact ⟨hm.symm, by rw [hs, hs', hnext]⟩

omit [Written α] in
/-- The functions are those of a model that exists. -/
theorem functions_ok (hsubject : subject.Coherent)
    (h : subject.functions n = (.ok (m, s), next)) :
    m.Coherent ∧ ∃ first, m.sensitivities first = (.ok s, next) := by
  cases subject with
  | model m' =>
      obtain ⟨rfl, hs⟩ := functionsOf_ok h
      exact ⟨hsubject, n, hs⟩
  | text t =>
      rw [functions_text] at h
      split at h
      · injection h with h
        injection h
      · rename_i m' first hmodel
        obtain ⟨rfl, hs⟩ := functionsOf_ok h
        exact ⟨Model.coherent_of_text hmodel, first, hs⟩

/-! ## Runs -/

/-- A run gets as far as the functions of this model. -/
structure Passed (subject : Subject α) (config : Configuration) (n : Nat) (m : Model α)
    (s : Sensitivities (SymbolicFunction α)) : Prop where
  version : engineVersion ∈ config.versions
  functions : (subject.functions n).1 = .ok (m, s)
  name : isIdentifier m.name = true
  proper : m.Proper s

/-- How a run ends. -/
inductive Ends (subject : Subject α) (config : Configuration) (n : Nat) (files : FileSystem) :
    Except GenerationError Emitted → FileSystem → Prop where
  | version (h : engineVersion ∉ config.versions) :
      Ends subject config n files (.error (.version engineVersion config.versions)) files
  /-- The text declares no model, or the model has no functions. -/
  | fault {e : GenerationError} (hversion : engineVersion ∈ config.versions)
      (h : (subject.functions n).1 = .error e) : Ends subject config n files (.error e) files
  /-- The options refuse code, but there is not even a directory for it. -/
  | closed {m : Model α} {s : Sensitivities (SymbolicFunction α)} {path : String}
      {after : FileSystem} (h : subject.Passed config n m s)
      (hpath : path ∈ [generatedDirectory config.base, modelDirectory config.base m.name])
      (hgrown : Grown (way (modelDirectory config.base m.name)) files after) :
      Ends subject config n files (.error (.files path)) after
  | refused {m : Model α} {s : Sensitivities (SymbolicFunction α)} {cause : AlgebraError}
      {after : FileSystem} (h : subject.Passed config n m s)
      (hcause : generateCode config.code (s.get .value) = .error cause)
      (hrefused : ∀ k, ∃ cause, generateCode config.code (s.get k) = .error cause)
      (hgrown : Grown (way (modelDirectory config.base m.name)) files after) :
      Ends subject config n files (.error (.code cause)) after
  | plan {m : Model α} {s : Sensitivities (SymbolicFunction α)}
      {codes : FunctionKind → GeneratedCode} {result : Except GenerationError Emitted}
      {after : FileSystem} (h : subject.Passed config n m s)
      (hcodes : ∀ k, generateCode config.code (s.get k) = .ok (codes k))
      (hends : (Plan.ofCodes config m.name codes).Ends files result after) :
      Ends subject config n files result after

/-- **A run ends in one of these ways.** -/
theorem generate_ends (hsubject : subject.Coherent) (config : Configuration) (n : Nat)
    (files : FileSystem) :
    ∃ result after next, subject.generate config files n = ((result, after), next) ∧
      subject.Ends config n files result after := by
  by_cases hversion : engineVersion ∈ config.versions
  · rw [generate_eq hversion]
    rcases hfunctions : subject.functions n with ⟨e | ⟨m, s⟩, next⟩
    · exact ⟨_, files, next, rfl, .fault hversion (congrArg Prod.fst hfunctions)⟩
    · obtain ⟨hm, _, hs⟩ := functions_ok hsubject hfunctions
      obtain ⟨hname, hproper⟩ := hm.proper hs
      have hpassed : subject.Passed config n m s :=
        ⟨hversion, congrArg Prod.fst hfunctions, hname, hproper⟩
      dsimp only
      rcases codes_or_refused hproper config.code with ⟨codes, hcodes⟩ | hrefused
      · obtain ⟨result, after, hrun, hends⟩ :=
          Plan.carryOut_ends (Plan.wellNamed_ofCodes hname hcodes) files
        rw [emit_ofCodes hproper hcodes, hrun]
        exact ⟨result, after, next, rfl, .plan hpassed hcodes hends⟩
      · -- the directories come before the code, so they may be what is refused
        obtain ⟨cause, hcause⟩ := hrefused .value
        rw [emit_of_refused hcause]
        obtain ⟨after, hgrown, ⟨_, hrun, _⟩ | ⟨_, path, hpath, hrun⟩⟩ :=
          openDirectories_spec config.base hname files
        · rw [Writing.bind_of_ok hrun]
          exact ⟨_, after, next, rfl, .refused hpassed hcause hrefused hgrown⟩
        · rw [Writing.bind_of_error hrun]
          exact ⟨_, after, next, rfl, .closed hpassed hpath hgrown⟩
  · rw [generate_of_notMem hversion]
    exact ⟨_, files, n, rfl, .version hversion⟩

theorem ends_of_run (hsubject : subject.Coherent) {result : Except GenerationError Emitted}
    (hrun : subject.generate config files n = ((result, after), next)) :
    subject.Ends config n files result after := by
  obtain ⟨_, _, _, hrun', hends⟩ := generate_ends hsubject config n files
  obtain ⟨hpair, -⟩ := Prod.mk.inj (hrun.symm.trans hrun')
  obtain ⟨rfl, rfl⟩ := Prod.mk.inj hpair
  exact hends

/-- A run that succeeds has carried out its plan. -/
theorem Ends.plan_of_ok {e : Emitted} (h : subject.Ends config n files (.ok e) after) :
    ∃ m s codes, subject.Passed config n m s ∧
      (∀ k, generateCode config.code (s.get k) = .ok (codes k)) ∧
      (Plan.ofCodes config m.name codes).Ready files ∧
      (Plan.ofCodes config m.name codes).Done files after ∧
      e = ⟨modelDirectory config.base m.name,
        (Plan.ofCodes config m.name codes).files.map (Plan.ofCodes config m.name codes).path⟩ := by
  cases h with
  | plan hpassed hcodes hends =>
      cases hends with
      | done hready hdone => exact ⟨_, _, _, hpassed, hcodes, hready, hdone, rfl⟩

/-- **A run succeeds wherever its plan can be carried out.** -/
theorem generate_of_ready {codes : FunctionKind → GeneratedCode}
    (hversion : engineVersion ∈ config.versions) (hname : isIdentifier m.name = true)
    (hproper : m.Proper s) (hfunctions : subject.functions n = (.ok (m, s), next))
    (hcodes : ∀ k, generateCode config.code (s.get k) = .ok (codes k))
    (hready : (Plan.ofCodes config m.name codes).Ready files) :
    ∃ after, subject.generate config files n =
        ((.ok ⟨modelDirectory config.base m.name,
          (Plan.ofCodes config m.name codes).files.map (Plan.ofCodes config m.name codes).path⟩,
          after), next) ∧ (Plan.ofCodes config m.name codes).Done files after := by
  obtain ⟨result, after, hrun, hends⟩ :=
    Plan.carryOut_ends (Plan.wellNamed_ofCodes hname hcodes) files
  rw [generate_eq hversion, hfunctions]
  dsimp only
  rw [emit_ofCodes hproper hcodes, hrun]
  cases hends with
  | done _ hdone => exact ⟨after, rfl, hdone⟩
  | closed hnot => exact absurd hready hnot
  | broken hnot => exact absurd hready hnot

/-! ## What is left -/

/-- What a run leaves, for every way in which it can end. -/
def Leaves (subject : Subject α) (config : Configuration) (n : Nat) (files after : FileSystem) :
    Except GenerationError Emitted → Prop
  | .error (.version detected allowed) =>
    engineVersion ∉ config.versions ∧ detected = engineVersion ∧ allowed = config.versions ∧
      after = files
  | .error (.model _) | .error (.declaration _) =>
    engineVersion ∈ config.versions ∧ after = files
  -- no function has code then
  | .error (.code cause) => ∃ m s, subject.Passed config n m s ∧
    generateCode config.code (s.get .value) = .error cause ∧
    (∀ k, ∃ cause, generateCode config.code (s.get k) = .error cause) ∧
    Grown (way (modelDirectory config.base m.name)) files after
  -- there is no directory and no file was written, or the files before this one were
  | .error (.files path) => ∃ m s, subject.Passed config n m s ∧
    (path ∈ [generatedDirectory config.base, modelDirectory config.base m.name] ∧
        Grown (way (modelDirectory config.base m.name)) files after ∨
      ∃ codes, (∀ k, generateCode config.code (s.get k) = .ok (codes k)) ∧
        ∃ done f rest, (Plan.ofCodes config m.name codes).files = done ++ f :: rest ∧
          path = (Plan.ofCodes config m.name codes).path f ∧
          (Plan.ofCodes config m.name codes).Changes done files after)
  | .ok e => ∃ m s codes, subject.Passed config n m s ∧
    (∀ k, generateCode config.code (s.get k) = .ok (codes k)) ∧
    e.directory = modelDirectory config.base m.name ∧
    e.paths = (fileNames config.code m.name).map (joinPath e.directory) ∧
    e.paths.length = (if config.code.header then 8 else 4) ∧
    (Plan.ofCodes config m.name codes).Done files after ∧
    ∀ f ∈ (Plan.ofCodes config m.name codes).files,
      after.contents? ((Plan.ofCodes config m.name codes).path f) = some f.2

theorem length_fileNames (options : CodeOptions) (model : String) :
    (fileNames options model).length = if options.header then 8 else 4 := by
  rw [fileNames, List.length_map]
  cases options.header <;> rfl

theorem Ends.leaves {result : Except GenerationError Emitted}
    (h : subject.Ends config n files result after) :
    subject.Leaves config n files after result := by
  cases h with
  | version hversion => exact ⟨hversion, rfl, rfl, rfl⟩
  | fault hversion hfunctions =>
      rcases functions_error (Prod.ext hfunctions rfl) with ⟨cause, rfl⟩ | ⟨cause, rfl⟩
      · exact ⟨hversion, rfl⟩
      · exact ⟨hversion, rfl⟩
  | closed hpassed hpath hgrown => exact ⟨_, _, hpassed, Or.inl ⟨hpath, hgrown⟩⟩
  | refused hpassed hcause hrefused hgrown => exact ⟨_, _, hpassed, hcause, hrefused, hgrown⟩
  | @plan m s codes _ _ hpassed hcodes hends =>
      cases hends with
      | done hready hdone =>
          have hpaths : (Plan.ofCodes config m.name codes).files.map
              (Plan.ofCodes config m.name codes).path =
                (fileNames config.code m.name).map
                  (joinPath (modelDirectory config.base m.name)) := by
            rw [← Plan.names_ofCodes hcodes, List.map_map]
            rfl
          refine ⟨m, s, codes, hpassed, hcodes, rfl, hpaths, ?_, hdone, fun f hf => ?_⟩
          · rw [hpaths, List.length_map, length_fileNames]
          · exact hdone.contents? hready (Plan.wellNamed_ofCodes hpassed.name hcodes) hf
      | closed _ hpath hgrown => exact ⟨m, s, hpassed, Or.inl ⟨hpath, hgrown⟩⟩
      | broken _ hfiles hchanges =>
          exact ⟨m, s, hpassed, Or.inr ⟨codes, hcodes, _, _, _, hfiles, rfl, hchanges⟩⟩

/-! ## The same run again -/

/-- Two subjects for runs that start at `n` and at `n'`: one text, or two models that are alike,
such as a model that is built twice. -/
inductive Repeats (n n' : Nat) : Subject α → Subject α → Prop where
  | model {m m' : Model α} {ρ : Nat → Nat → Prop} (hρ : BiUnique ρ) (hn : Onward ρ n n')
      (h : m.Alike ρ m') (hm' : m'.Coherent) : Repeats n n' (.model m) (.model m')
  | text (t : String) : Repeats n n' (.text t) (.text t)

omit [Written α] in
theorem functionsOf_of_ok (hs : m.sensitivities n = (.ok s, next)) :
    functionsOf m n = (.ok (m, s), next) := by
  rw [functionsOf_eq, hs]

/-- **A subject that repeats another has functions of the same code.** -/
theorem Repeats.functions {subject' : Subject α} {n' : Nat} (hsubject : subject.Coherent)
    (h : Repeats n n' subject subject') (hs : (subject.functions n).1 = .ok (m, s)) :
    subject'.Coherent ∧ ∃ m' s' next', subject'.functions n' = (.ok (m', s'), next') ∧
      m'.name = m.name ∧
      ∀ k options, generateCode options (s.get k) = generateCode options (s'.get k) := by
  have hs : subject.functions n = (.ok (m, s), (subject.functions n).2) := Prod.ext hs rfl
  cases h with
  | @model m₀ m' ρ hρ hn halike hm' =>
      obtain ⟨rfl, hs⟩ := functionsOf_ok hs
      obtain ⟨s', next', hs', hcode⟩ := halike.sensitivities_again hρ hsubject hm' hn hs
      exact ⟨hm', m', s', next', functionsOf_of_ok hs', halike.name.symm, hcode⟩
  | text t =>
      rw [functions_text] at hs
      split at hs
      · injection hs with hs
        injection hs
      · rename_i m₀ first hmodel
        obtain ⟨rfl, hs⟩ := functionsOf_ok hs
        obtain ⟨m', first', hmodel', halike, hn⟩ := Declaration.modelOfText_again hmodel n'
        obtain ⟨s', next', hs', hcode⟩ := halike.sensitivities_again (biUnique_shifted n n')
          (Model.coherent_of_text hmodel) (Model.coherent_of_text hmodel') hn hs
        refine ⟨trivial, m', s', next', ?_, halike.name.symm, hcode⟩
        rw [functions_text, hmodel']
        exact functionsOf_of_ok hs'

/-- **What a run leaves in the file system.** A run that succeeded can be repeated, with the same
result, and the second run leaves every place as it is. -/
theorem generate_leaves (hsubject : subject.Coherent) {result : Except GenerationError Emitted}
    (hrun : subject.generate config files n = ((result, after), next)) :
    subject.Leaves config n files after result ∧
      ∀ e, result = .ok e → ∀ n' subject', Repeats n n' subject subject' →
        ∃ last next', subject'.generate config after n' = ((.ok e, last), next') ∧
          last.get? = after.get? := by
  have hends := ends_of_run hsubject hrun
  refine ⟨hends.leaves, ?_⟩
  rintro e rfl n' subject' hrepeats
  obtain ⟨m, s, codes, hpassed, hcodes, hready, hdone, rfl⟩ := hends.plan_of_ok
  obtain ⟨hsubject', m', s', next', hfunctions, hname, hcode⟩ :=
    hrepeats.functions hsubject hpassed.functions
  obtain ⟨hm', _, hs'⟩ := functions_ok hsubject' hfunctions
  obtain ⟨hname', hproper'⟩ := hm'.proper hs'
  have hcodes' : ∀ k, generateCode config.code (s'.get k) = .ok (codes k) :=
    fun k => (hcode k config.code).symm.trans (hcodes k)
  -- the plan is the same, and it can be carried out wherever it has been
  rw [← hname] at hready hdone ⊢
  have hagain := hready.again (Plan.wellNamed_ofCodes hname' hcodes') hdone
  obtain ⟨last, hlast, hdone'⟩ :=
    generate_of_ready hpassed.version hname' hproper' hfunctions hcodes' hagain
  exact ⟨last, next', hlast, hdone.again hdone'⟩

/-! The text that declares one state, one control and one parameter, with the default
configuration. -/

open Declaration in
/-- There are files where nothing was. -/
theorem generate_driven : ∃ e after next,
    (text drivenText : Subject Float).generate {} .empty 0 = ((.ok e, after), next) := by
  have hwellPosed := @drivenModel_wellPosed Float
  obtain ⟨s, codes, hs, hproper, hcodes⟩ :=
    hwellPosed.exists_codes (show ¬(({} : Configuration).code.gateway = .mex ∧
      ({} : Configuration).code.floats = .single) by decide)
  have hfunctions : (text drivenText : Subject Float).functions 0 =
      (.ok (drivenModel Float, s), ((drivenModel Float).sensitivities 5).2) := by
    rw [functions_text, modelOfText_driven]
    exact functionsOf_of_ok (Prod.ext hs rfl)
  have hshort : Plan.ShortNames "." "driven" (fileNames {} "driven") := by decide
  have hready : (Plan.ofCodes {} (drivenModel Float).name codes).Ready .empty := by
    refine Plan.Ready.of_empty hwellPosed.name ?_
    rw [Plan.names_ofCodes hcodes]
    exact hshort
  obtain ⟨after, hrun, _⟩ :=
    generate_of_ready (by decide) hwellPosed.name hproper hfunctions hcodes hready
  exact ⟨_, after, _, hrun⟩

open Declaration in
/-- The run leaves what it should, and again with identities from 7 on. -/
theorem generate_leaves_driven : ∃ e after,
    (text drivenText : Subject Float).Leaves {} 0 .empty after (.ok e) ∧
      ∃ last next', (text drivenText : Subject Float).generate {} after 7 =
          ((.ok e, last), next') ∧ last.get? = after.get? := by
  obtain ⟨e, after, next, hrun⟩ := generate_driven
  have hcoherent : (text drivenText : Subject Float).Coherent := trivial
  obtain ⟨hleaves, hagain⟩ := generate_leaves hcoherent hrun
  exact ⟨e, after, hleaves, hagain e rfl 7 _ (.text drivenText)⟩

end Subject

end ExplicitOde
