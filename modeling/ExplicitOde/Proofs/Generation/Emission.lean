import ExplicitOde.Generation.Run
import ExplicitOde.Proofs.Computation
import ExplicitOde.Proofs.Generation.FileSystem

/-!
# Writing the files of a model

A `Plan` is all that a run writes when it is clear what it has to write: the files of one directory,
in order. `Plan.carryOut` makes the directories on the way and then writes one file after the other,
up to the first that cannot be written.

Whether a plan can be carried out is decided by the file system before: `Plan.Ready`. **How it ends
is one of three ways**, `Plan.Ends`: with all files, without the directory, or before one of the
files. In each of them nothing has changed but what is said.
-/

namespace ExplicitOde

open FileSystem

variable {α β γ : Type} {files mid after : FileSystem}

/-! ## Steps -/

namespace Writing

variable {x : Writing β} {f : β → Writing γ}

theorem bind_of_ok {b : β} (h : x files = (.ok b, mid)) : (x >>= f) files = f b mid := by
  change ExceptT.bindCont f (x files).1 (x files).2 = f b mid
  rw [h]
  rfl

theorem bind_of_error {e : GenerationError} (h : x files = (.error e, mid)) :
    (x >>= f) files = (.error e, mid) := by
  change ExceptT.bindCont f (x files).1 (x files).2 = (.error e, mid)
  rw [h]
  rfl

theorem get_run (files : FileSystem) : (get : Writing FileSystem) files = (.ok files, files) := rfl

/-- A directory is ensured if its way can be made. -/
theorem ensure_spec {path : String} (hpath : endsHere path = false) (files : FileSystem) :
    ∃ after, Grown (way path) files after ∧
      (files.CanEnsure path ∧ ensure path files = (.ok (), after) ∧
          (∀ q ∈ way path, after.get? q = some .directory) ∨
        ¬files.CanEnsure path ∧ ensure path files = (.error (.files path), after)) := by
  obtain ⟨after, hgrown, hend⟩ := ensurePath_spec hpath files
  have hrun : ∀ done, files.ensurePath path = (after, done) →
      ensure path files = ((if done then .ok () else .error (.files path)), after) := by
    intro done hdone
    rw [ensure, bind_of_ok (get_run files), hdone]
    cases done <;> rfl
  refine ⟨after, hgrown, hend.imp ?_ ?_⟩
  · rintro ⟨hcan, hensure, hway⟩
    exact ⟨hcan, hrun true hensure, hway⟩
  · rintro ⟨hcan, hensure⟩
    exact ⟨hcan, hrun false hensure⟩

variable {directory : String} {file : String × String}

theorem write_of_canStore (hname : IsEntryName file.1) (h : files.CanStore directory file.1) :
    write directory file files = (.ok (joinPath directory file.1),
      files.set (entryPlace directory file.1) (.file file.2)) := by
  rw [write, bind_of_ok (get_run files), store?_of_canStore hname h]
  rfl

theorem write_of_not_canStore (hname : IsEntryName file.1) (h : ¬files.CanStore directory file.1) :
    write directory file files = (.error (.files (joinPath directory file.1)), files) := by
  rw [write, bind_of_ok (get_run files), store?_of_not_canStore hname h]
  rfl

/-! ## One file after the other -/

/-- Files have been written into a directory, and nothing else has changed. -/
structure Stored (directory : String) (done : List (String × String))
    (files after : FileSystem) : Prop where
  longestPath : after.longestPath = files.longestPath
  written : ∀ f ∈ done, after.get? (entryPlace directory f.1) = some (.file f.2)
  others : ∀ q, (∀ f ∈ done, q ≠ entryPlace directory f.1) → after.get? q = files.get? q

theorem get?_setFile (files : FileSystem) (directory : String) (file : String × String) :
    (files.set (entryPlace directory file.1) (.file file.2)).get? =
      Function.update files.get? (entryPlace directory file.1) (some (.file file.2)) :=
  get?_set entryPlace_ne_root files _

/-- Writing a file makes no other file possible or impossible. -/
theorem canStore_set_iff (h : files.CanStore directory file.1) {name : String} :
    (files.set (entryPlace directory file.1) (.file file.2)).CanStore directory name ↔
      files.CanStore directory name := by
  have hget := get?_setFile files directory file
  -- the place of the file is not on the way, since it is no directory
  have hdirectory : ∀ q,
      (files.set (entryPlace directory file.1) (.file file.2)).get? q = some .directory ↔
        files.get? q = some .directory := by
    intro q
    rw [hget, Function.update_apply]
    by_cases hq : q = entryPlace directory file.1
    · subst hq
      rw [if_pos rfl]
      exact iff_of_false (fun heq => nomatch heq) h.2
    · rw [if_neg hq]
  have hway : (∀ p ∈ way directory,
      (files.set (entryPlace directory file.1) (.file file.2)).get? p = some .directory) ↔
        ∀ p ∈ way directory, files.get? p = some .directory :=
    forall_congr' fun p => imp_congr_right fun _ => hdirectory p
  rw [CanStore, CanStore, ne_eq, hdirectory]
  refine and_congr_left' ⟨fun hr => ⟨hr.possiblePath, hr.possibleName, hway.mp hr.way⟩, fun hr =>
    ⟨hr.possiblePath, hr.possibleName, hway.mpr hr.way⟩⟩

/-- One file more, before the others. -/
theorem Stored.cons {done : List (String × String)} (hnew : file.1 ∉ done.map Prod.fst)
    (h : Stored directory done (files.set (entryPlace directory file.1) (.file file.2)) after) :
    Stored directory (file :: done) files after := by
  have hget := get?_setFile files directory file
  refine ⟨h.longestPath, List.forall_mem_cons.mpr ⟨?_, h.written⟩, fun q hq => ?_⟩
  · have hother : ∀ f ∈ done, entryPlace directory file.1 ≠ entryPlace directory f.1 := by
      intro f hf heq
      rw [entryPlace_injective directory heq] at hnew
      exact hnew (List.mem_map_of_mem hf)
    rw [h.others _ hother, hget, Function.update_self]
  · obtain ⟨hfirst, hrest⟩ := List.forall_mem_cons.mp hq
    rw [h.others q hrest, hget, Function.update_of_ne hfirst]

/-- **Files are written in order, up to the first that cannot be written.** -/
theorem mapM_write_spec (directory : String) {fs : List (String × String)}
    (hnames : ∀ f ∈ fs, IsEntryName f.1) (hdistinct : (fs.map Prod.fst).Nodup)
    (files : FileSystem) :
    ((∀ f ∈ fs, files.CanStore directory f.1) ∧ ∃ after,
        fs.mapM (write directory) files =
          (.ok (fs.map fun f => joinPath directory f.1), after) ∧
        Stored directory fs files after) ∨
      ∃ done f rest after, fs = done ++ f :: rest ∧ ¬files.CanStore directory f.1 ∧
        fs.mapM (write directory) files = (.error (.files (joinPath directory f.1)), after) ∧
        Stored directory done files after := by
  induction fs generalizing files with
  | nil =>
      refine Or.inl ⟨fun f hf => absurd hf List.not_mem_nil, files, rfl, rfl, ?_, fun q _ => rfl⟩
      exact fun f hf => absurd hf List.not_mem_nil
  | cons f fs ih =>
      obtain ⟨hname, hnames⟩ := List.forall_mem_cons.mp hnames
      obtain ⟨hnew, hdistinct⟩ := List.nodup_cons.mp hdistinct
      rw [List.mapM_cons]
      -- storing this file leaves the others as possible as they were
      by_cases hcan : files.CanStore directory f.1
      · have hwrite := write_of_canStore hname hcan
        rcases ih hnames hdistinct (files.set (entryPlace directory f.1) (.file f.2)) with
          ⟨hall, after, hrun, hstored⟩ | ⟨done, g, rest, after, rfl, hnot, hrun, hstored⟩
        · refine Or.inl ⟨List.forall_mem_cons.mpr ⟨hcan, fun g hg =>
            (canStore_set_iff hcan).mp (hall g hg)⟩, after, ?_, hstored.cons hnew⟩
          rw [bind_of_ok hwrite, bind_of_ok hrun]
          rfl
        · refine Or.inr ⟨f :: done, g, rest, after, rfl,
            fun hg => hnot ((canStore_set_iff hcan).mpr hg), ?_, hstored.cons fun hf => hnew ?_⟩
          · rw [bind_of_ok hwrite, bind_of_error hrun]
          · rw [List.map_append]
            exact List.mem_append_left _ hf
      · refine Or.inr ⟨[], f, fs, files, rfl, hcan, ?_, ?_⟩
        · rw [bind_of_error (write_of_not_canStore hname hcan)]
        · exact ⟨rfl, fun g hg => absurd hg List.not_mem_nil, fun q _ => rfl⟩

end Writing

/-! ## Directories -/

theorem isEntryName_generated : IsEntryName "c_generated_code" := by
  have h := isEntryName_append (show isIdentifier "c" = true by decide)
    (show '/' ∉ ("_generated_code" : String).toList by decide)
  exact h

theorem isEntryName_modelDirectoryName {model : String} (h : isIdentifier model = true) :
    IsEntryName (modelDirectoryName model) :=
  isEntryName_append h (by decide)

section Directories

variable {base model : String}

theorem endsHere_generatedDirectory (base : String) :
    endsHere (generatedDirectory base) = false :=
  not_endsHere_joinPath base isEntryName_generated

theorem endsHere_modelDirectory (base : String) (h : isIdentifier model = true) :
    endsHere (modelDirectory base model) = false :=
  not_endsHere_joinPath _ (isEntryName_modelDirectoryName h)

/-- The place of the directory of a model. -/
def modelPlace (base model : String) : Place :=
  entryPlace (generatedDirectory base) (modelDirectoryName model)

theorem destination_modelDirectory (base : String) (h : isIdentifier model = true) :
    destination [] (pathSteps (modelDirectory base model)) = modelPlace base model :=
  destination_joinPath _ (isEntryName_modelDirectoryName h)

/-- The way to the directory of a model leads past the directory of all generated code. -/
theorem way_modelDirectory (base : String) (h : isIdentifier model = true) :
    way (modelDirectory base model) =
      way (generatedDirectory base) ++ [modelPlace base model] :=
  way_joinPath _ (isEntryName_modelDirectoryName h)

/-- Makes the directories of a model. -/
def openDirectories (base model : String) : Writing Unit := do
  Writing.ensure (generatedDirectory base)
  Writing.ensure (modelDirectory base model)

/-- The directories of a model can be made. -/
def CanOpen (files : FileSystem) (base model : String) : Prop :=
  files.CanEnsure (generatedDirectory base) ∧ files.CanEnsure (modelDirectory base model)

theorem openDirectories_spec (base : String) (hmodel : isIdentifier model = true)
    (files : FileSystem) :
    ∃ after, Grown (way (modelDirectory base model)) files after ∧
      (CanOpen files base model ∧ openDirectories base model files = (.ok (), after) ∧
          (∀ q ∈ way (modelDirectory base model), after.get? q = some .directory) ∨
        ¬CanOpen files base model ∧
          ∃ path ∈ [generatedDirectory base, modelDirectory base model],
            openDirectories base model files = (.error (.files path), after)) := by
  have hsub : ∀ p ∈ way (generatedDirectory base), p ∈ way (modelDirectory base model) := by
    intro p hp
    rw [way_modelDirectory base hmodel]
    exact List.mem_append_left _ hp
  obtain ⟨mid, hmid, hfirst⟩ := Writing.ensure_spec (endsHere_generatedDirectory base) files
  have hmid := hmid.mono hsub
  rw [CanOpen, openDirectories]
  rcases hfirst with ⟨hcan, hrun, _⟩ | ⟨hcannot, hrun⟩
  · obtain ⟨after, hafter, hsecond⟩ :=
      Writing.ensure_spec (endsHere_modelDirectory base hmodel) mid
    -- making the first directory decides nothing about the second
    have hsame : mid.CanEnsure (modelDirectory base model) ↔
        files.CanEnsure (modelDirectory base model) :=
      and_congr (by rw [isPossiblePath_congr hmid.longestPath])
        (forall_congr' fun p => imp_congr_right fun _ => hmid.makeable_iff)
    rw [and_iff_right hcan, Writing.bind_of_ok hrun, ← hsame]
    refine ⟨after, hmid.trans hafter, hsecond.imp_right fun ⟨hcannot, hrun⟩ => ?_⟩
    exact ⟨hcannot, _, List.mem_cons_of_mem _ (List.mem_singleton_self _), hrun⟩
  · refine ⟨mid, hmid, Or.inr ⟨fun h => hcannot h.1, _, List.mem_cons_self, ?_⟩⟩
    exact Writing.bind_of_error hrun

end Directories

/-! ## Plans -/

/-- What is to be written for a model: files of one directory, in order. -/
structure Plan where
  base : String
  model : String
  /-- Names and texts. -/
  files : List (String × String)

namespace Plan

variable {p : Plan}

/-- The path of the directory. -/
def directory (p : Plan) : String := modelDirectory p.base p.model

/-- The places on the way to the directory. -/
def way (p : Plan) : List Place := FileSystem.way p.directory

/-- The path of a file. -/
def path (p : Plan) (file : String × String) : String := joinPath p.directory file.1

/-- The place of a file. -/
def place (p : Plan) (file : String × String) : Place := entryPlace p.directory file.1

/-- Names that cannot lead out of the directory, none of them twice. -/
structure WellNamed (p : Plan) : Prop where
  model : isIdentifier p.model = true
  files : ∀ f ∈ p.files, IsEntryName f.1
  distinct : (p.files.map Prod.fst).Nodup

/-- Makes the directories and writes the files. -/
def carryOut (p : Plan) : Writing Emitted := do
  openDirectories p.base p.model
  let paths ← p.files.mapM (Writing.write p.directory)
  return ⟨p.directory, paths⟩

/-- The plan can be carried out in a file system. -/
structure Ready (p : Plan) (files : FileSystem) : Prop where
  opens : CanOpen files p.base p.model
  possible : ∀ f ∈ p.files, files.isPossiblePath (p.path f) = true ∧ isPossibleName f.1 = true
  /-- No file is where a directory is, or will be. -/
  free : ∀ f ∈ p.files, files.get? (p.place f) ≠ some .directory ∧ p.place f ∉ p.way

/-- Files of the plan have been written, directories made on the way where nothing was, and nothing
else has changed. -/
structure Changes (p : Plan) (done : List (String × String)) (files after : FileSystem) :
    Prop where
  longestPath : after.longestPath = files.longestPath
  written : ∀ f ∈ done, after.get? (p.place f) = some (.file f.2)
  others : ∀ q, (∀ f ∈ done, q ≠ p.place f) → after.get? q = files.get? q ∨
    q ∈ p.way ∧ files.get? q = none ∧ after.get? q = some .directory

/-- The plan has been carried out. -/
structure Done (p : Plan) (files after : FileSystem) : Prop extends
    Changes p p.files files after where
  way : ∀ q ∈ p.way, after.get? q = some .directory

/-- How carrying out a plan ends. -/
inductive Ends (p : Plan) (files : FileSystem) :
    Except GenerationError Emitted → FileSystem → Prop where
  | done {after : FileSystem} (ready : p.Ready files) (done : p.Done files after) :
      Ends p files (.ok ⟨p.directory, p.files.map p.path⟩) after
  /-- There is no directory for the files. -/
  | closed {after : FileSystem} {path : String} (hnot : ¬p.Ready files)
      (hpath : path ∈ [generatedDirectory p.base, p.directory])
      (grown : Grown p.way files after) : Ends p files (.error (.files path)) after
  /-- A file cannot be written. The files before it have been. -/
  | broken {after : FileSystem} {done rest : List (String × String)} {f : String × String}
      (hnot : ¬p.Ready files) (hfiles : p.files = done ++ f :: rest)
      (changes : p.Changes done files after) : Ends p files (.error (.files (p.path f))) after

theorem Changes.of_stored {done : List (String × String)} (hgrown : Grown p.way files mid)
    (hstored : Writing.Stored p.directory done mid after) : p.Changes done files after where
  longestPath := hstored.longestPath.trans hgrown.longestPath
  written := hstored.written
  others q hq := by
    rw [hstored.others q hq]
    exact (hgrown.entry q).imp_right fun ⟨hway, _, hnone, hmade⟩ => ⟨hway, hnone, hmade⟩

/-- Where the directories have been made, it is clear which files can be written. -/
theorem canStore_iff (hgrown : Grown p.way files mid)
    (hway : ∀ q ∈ p.way, mid.get? q = some .directory) {f : String × String} :
    mid.CanStore p.directory f.1 ↔
      (files.isPossiblePath (p.path f) = true ∧ isPossibleName f.1 = true) ∧
        files.get? (p.place f) ≠ some .directory ∧ p.place f ∉ p.way := by
  rw [← isPossiblePath_congr hgrown.longestPath]
  refine and_congr ⟨fun h => ⟨h.possiblePath, h.possibleName⟩, fun h => ⟨h.1, h.2, hway⟩⟩ ?_
  constructor
  · exact fun h => ⟨fun hdirectory => h (hgrown.directory hdirectory), fun hf => h (hway _ hf)⟩
  · rintro ⟨hfree, hout⟩ hdirectory
    rcases hgrown.entry (p.place f) with hsame | ⟨hin, _⟩
    · exact hfree (hsame ▸ hdirectory)
    · exact hout hin

/-- **A plan is carried out if it can be, and otherwise as far as possible.** -/
theorem carryOut_ends (h : p.WellNamed) (files : FileSystem) :
    ∃ result after, p.carryOut files = (result, after) ∧ p.Ends files result after := by
  obtain ⟨mid, hgrown, ⟨hopen, hrun, hway⟩ | ⟨hclosed, path, hpath, hrun⟩⟩ :=
    openDirectories_spec p.base h.model files
  · rcases Writing.mapM_write_spec p.directory h.files h.distinct mid with
      ⟨hall, after, hwrites, hstored⟩ | ⟨done, f, rest, after, hfiles, hnot, hwrites, hstored⟩
    · have hchanges := Changes.of_stored hgrown hstored
      have hready : p.Ready files := {
        opens := hopen
        possible := fun f hf => ((canStore_iff hgrown hway).mp (hall f hf)).1
        free := fun f hf => ((canStore_iff hgrown hway).mp (hall f hf)).2 }
      refine ⟨_, after, ?_, .done hready ⟨hchanges, fun q hq => ?_⟩⟩
      · rw [carryOut, Writing.bind_of_ok hrun, Writing.bind_of_ok hwrites]
        rfl
      · -- no file stands where a directory on the way does
        have hother : ∀ f ∈ p.files, q ≠ p.place f := by
          rintro f hf rfl
          exact (hready.free f hf).2 hq
        rw [hstored.others q hother]
        exact hway q hq
    · refine ⟨_, after, ?_, .broken (fun hready => hnot ?_) hfiles (.of_stored hgrown hstored)⟩
      · rw [carryOut, Writing.bind_of_ok hrun, Writing.bind_of_error hwrites]
        rfl
      · have hf : f ∈ p.files := by
          rw [hfiles]
          exact List.mem_append_right _ List.mem_cons_self
        exact (canStore_iff hgrown hway).mpr ⟨hready.possible f hf, hready.free f hf⟩
  · refine ⟨_, mid, ?_, .closed (fun hready => hclosed hready.opens) hpath hgrown⟩
    rw [carryOut, Writing.bind_of_error hrun]

/-- No name on the way to these files is too long, and none of them is to be where a directory is
needed. -/
abbrev ShortNames (base model : String) (names : List String) : Prop :=
  (∀ path ∈ [generatedDirectory base, modelDirectory base model],
      FileSystem.empty.isPossiblePath path = true) ∧
    (∀ q ∈ FileSystem.way (modelDirectory base model), q.all isPossibleName = true) ∧
    ∀ name ∈ names,
      FileSystem.empty.isPossiblePath (joinPath (modelDirectory base model) name) = true ∧
      isPossibleName name = true ∧
      entryPlace (modelDirectory base model) name ∉ FileSystem.way (modelDirectory base model)

/-- **In an empty file system** a plan can be carried out if its names are short. -/
theorem Ready.of_empty (hmodel : isIdentifier p.model = true)
    (h : ShortNames p.base p.model (p.files.map Prod.fst)) : p.Ready .empty := by
  obtain ⟨hpaths, hway, hfiles⟩ := h
  have hmakeable : ∀ q ∈ p.way, FileSystem.empty.Makeable q := by
    intro q hq
    by_cases hroot : q = []
    · exact Or.inl (hroot ▸ get?_root .empty)
    · exact Or.inr ⟨if_neg hroot, hway q hq⟩
  refine ⟨⟨⟨hpaths _ List.mem_cons_self, fun q hq => hmakeable q ?_⟩,
    hpaths _ (List.mem_cons_of_mem _ List.mem_cons_self), hmakeable⟩, fun f hf => ?_,
    fun f hf => ?_⟩
  · rw [way, directory, way_modelDirectory p.base hmodel]
    exact List.mem_append_left _ hq
  · obtain ⟨hpath, hname, _⟩ := hfiles f.1 (List.mem_map_of_mem hf)
    exact ⟨hpath, hname⟩
  · refine ⟨fun hdirectory => ?_, (hfiles f.1 (List.mem_map_of_mem hf)).2.2⟩
    have hnone : FileSystem.empty.get? (p.place f) = none := if_neg entryPlace_ne_root
    rw [hnone] at hdirectory
    cases hdirectory

/-- What has changed is a file of the plan, or a directory that was missing. -/
theorem Changes.of_ne {done : List (String × String)} (h : p.Changes done files after) {q : Place}
    (hq : after.get? q ≠ files.get? q) :
    (∃ f ∈ done, q = p.place f) ∨
      q ∈ p.way ∧ files.get? q = none ∧ after.get? q = some .directory := by
  by_cases hfile : ∃ f ∈ done, q = p.place f
  · exact Or.inl hfile
  · exact Or.inr ((h.others q fun f hf heq => hfile ⟨f, hf, heq⟩).resolve_left hq)

/-! ## After a plan has been carried out -/

/-- What was not changed to a file of the plan is on the way or as before. -/
theorem Done.get?_of_other (h : p.Done files after) {q : Place} (hq : q ∉ p.way)
    (hfiles : ∀ f ∈ p.files, q ≠ p.place f) : after.get? q = files.get? q :=
  (h.others q hfiles).resolve_right fun hway => hq hway.1

/-- The files are found under their paths. -/
theorem Done.contents? (h : p.Done files after) (hready : p.Ready files) (hnames : p.WellNamed)
    {f : String × String} (hf : f ∈ p.files) : after.contents? (p.path f) = some f.2 :=
  (contents?_eq_some_iff (hnames.files f hf)).mpr
    ⟨⟨isPossiblePath_congr h.longestPath _ ▸ (hready.possible f hf).1,
      (hready.possible f hf).2, h.way⟩, h.written f hf⟩

theorem Ready.makeable_way (h : p.Ready files) : ∀ q ∈ p.way, files.Makeable q := h.opens.2.2

/-- What is ready depends on what is on the way and at the places of the files only. -/
theorem Ready.of_makeable (h : p.Ready files) (hmodel : isIdentifier p.model = true)
    (hlongest : after.longestPath = files.longestPath)
    (hway : ∀ q ∈ p.way, after.Makeable q)
    (hfree : ∀ f ∈ p.files, after.get? (p.place f) ≠ some .directory) : p.Ready after where
  opens := by
    simp only [CanOpen, CanEnsure, isPossiblePath_congr hlongest]
    refine ⟨⟨h.opens.1.1, fun q hq => hway q ?_⟩, h.opens.2.1, hway⟩
    rw [way, directory, way_modelDirectory p.base hmodel]
    exact List.mem_append_left _ hq
  possible f hf := isPossiblePath_congr hlongest _ ▸ h.possible f hf
  free f hf := ⟨hfree f hf, (h.free f hf).2⟩

/-- A plan that has been carried out can be carried out again. -/
theorem Ready.again (h : p.Ready files) (hnames : p.WellNamed) (hdone : p.Done files after) :
    p.Ready after := by
  refine h.of_makeable hnames.model hdone.longestPath (fun q hq => Or.inl (hdone.way q hq))
    fun f hf heq => ?_
  rw [hdone.written f hf] at heq
  cases heq

/-- Carrying out a plan again changes nothing. -/
theorem Done.again {last : FileSystem} (h : p.Done files after) (h' : p.Done after last) :
    last.get? = after.get? := by
  funext q
  by_cases hfile : ∃ f ∈ p.files, q = p.place f
  · obtain ⟨f, hf, rfl⟩ := hfile
    rw [h'.written f hf, h.written f hf]
  · by_cases hq : q ∈ p.way
    · rw [h'.way q hq, h.way q hq]
    · exact h'.get?_of_other hq fun f hf heq => hfile ⟨f, hf, heq⟩

end Plan

/-! ## The code of functions -/

section Functions

variable [Written α] {config : Configuration} {functions : List (SymbolicFunction α)}

/-- The files of functions that have code are written one after the other. -/
theorem mapM_emitFunction {options : CodeOptions} {codes : List GeneratedCode}
    (h : functions.mapM (generateCode options) = .ok codes) (directory : String) :
    (List.flatten <$> functions.mapM (emitFunction options directory) : Writing (List String)) =
      (codes.flatMap GeneratedCode.files).mapM (Writing.write directory) := by
  have hcodes := mapM_eq_ok_iff.mp h
  clear h
  induction hcodes with
  | nil => rfl
  | @cons f code functions codes hcode _ ih =>
      have hemit : emitFunction options directory f =
          code.files.mapM (Writing.write directory) := by
        rw [emitFunction, hcode]
      rw [List.mapM_cons, List.flatMap_cons, List.mapM_append, hemit, ← ih]
      simp only [map_eq_pure_bind, bind_assoc, pure_bind, List.flatten_cons]

/-- **Functions that have code are a plan.** -/
theorem emit_eq_carryOut {codes : List GeneratedCode} (model : String)
    (h : functions.mapM (generateCode config.code) = .ok codes) :
    emit config model functions =
      (Plan.mk config.base model (codes.flatMap GeneratedCode.files)).carryOut := by
  rw [emit, Plan.carryOut, openDirectories, bind_assoc]
  dsimp only [Plan.directory]
  rw [← mapM_emitFunction h]
  simp only [map_eq_pure_bind, bind_assoc, pure_bind]

/-- If the first function has no code, directories are all that is made. -/
theorem emit_eq_throw {f : SymbolicFunction α} {cause : AlgebraError} (model : String)
    (h : generateCode config.code f = .error cause) :
    emit config model (f :: functions) =
      (do openDirectories config.base model
          throw (.code cause)) := by
  have hemit : ∀ directory, emitFunction config.code directory f =
      (throw (.code cause) : Writing (List String)) := by
    intro directory
    rw [emitFunction, h]
  rw [emit, openDirectories, bind_assoc]
  dsimp only
  rw [List.mapM_cons, hemit]
  rfl

end Functions

end ExplicitOde
