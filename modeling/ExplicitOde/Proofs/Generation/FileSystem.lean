import ExplicitOde.Generation.FileSystem
import ExplicitOde.Proofs.Generation.Path
import Mathlib.Logic.Function.Basic

/-!
# What changes in a file system

File systems are compared by what is at each place, `get?`, not by their lists of entries.

**Making directories** changes nothing but places on the way where nothing was: `Grown`. It gets to
the end if every place on the way is a directory or can be made one: `Makeable`. Neither depends on
what was made before, so that one way can be a part of another.

**Writing a file** into a directory changes one place, `entryPlace`, if the path of the file can be
followed: `Reaches`.
-/

namespace ExplicitOde

namespace FileSystem

variable {files mid after : FileSystem} {place q : Place} {entry : Entry} {path : String}

/-! ## Single places -/

theorem lookup_filter_ne (h : q ≠ place) (entries : List (Place × Entry)) :
    (entries.filter fun e => e.1 ≠ place).lookup q = entries.lookup q := by
  induction entries with
  | nil => rfl
  | cons e entries ih =>
      rw [List.filter_cons, List.lookup_cons]
      by_cases he : e.1 = place
      · rw [if_neg (by simpa using he), ih, beq_false_of_ne (he ▸ h)]
      · rw [if_pos (by simpa using he), List.lookup_cons, ih]

/-- Setting a place changes this place only. -/
theorem get?_set (h : place ≠ []) (files : FileSystem) (entry : Entry) :
    (files.set place entry).get? = Function.update files.get? place (some entry) := by
  funext q
  rw [Function.update_apply, get?, get?, set, List.lookup_cons]
  by_cases hq : q = place
  · rw [if_pos hq, if_neg (hq ▸ h), beq_iff_eq.mpr hq]
  · rw [if_neg hq, beq_false_of_ne hq, lookup_filter_ne hq]

theorem isDirectory_iff : files.isDirectory place = true ↔ files.get? place = some .directory := by
  rw [isDirectory, beq_iff_eq]

theorem get?_root (files : FileSystem) : files.get? [] = some .directory := if_pos rfl

/-! ## Making directories -/

/-- A directory is at the place, or there is nothing and one can be made. -/
def Makeable (files : FileSystem) (place : Place) : Prop :=
  files.get? place = some .directory ∨ files.get? place = none ∧ place.all isPossibleName = true

/-- Directories have been made at some of the places, where nothing was, and nothing else has
changed. -/
structure Grown (places : List Place) (files after : FileSystem) : Prop where
  longestPath : after.longestPath = files.longestPath
  entry : ∀ q, after.get? q = files.get? q ∨
    q ∈ places ∧ files.Makeable q ∧ files.get? q = none ∧ after.get? q = some .directory

theorem Grown.refl (places : List Place) (files : FileSystem) : Grown places files files :=
  ⟨rfl, fun _ => Or.inl rfl⟩

theorem Grown.mono {places more : List Place} (h : Grown places files after)
    (hsub : ∀ p ∈ places, p ∈ more) : Grown more files after :=
  ⟨h.longestPath, fun q => (h.entry q).imp_right fun ⟨hq, hrest⟩ => ⟨hsub q hq, hrest⟩⟩

/-- What can be made a directory can be made one before and after. -/
theorem Grown.makeable_iff {places : List Place} (h : Grown places files after) :
    after.Makeable q ↔ files.Makeable q := by
  rcases h.entry q with hsame | ⟨_, hmakeable, _, hmade⟩
  · rw [Makeable, Makeable, hsame]
  · exact iff_of_true (Or.inl hmade) hmakeable

theorem Grown.directory {places : List Place} (h : Grown places files after)
    (hq : files.get? q = some .directory) : after.get? q = some .directory := by
  rcases h.entry q with hsame | ⟨_, _, _, hmade⟩
  · rw [hsame, hq]
  · exact hmade

/-- What has changed is a directory that was missing. -/
theorem Grown.of_ne {places : List Place} (h : Grown places files after)
    (hq : after.get? q ≠ files.get? q) :
    q ∈ places ∧ files.get? q = none ∧ after.get? q = some .directory := by
  obtain ⟨hmem, _, hnone, hmade⟩ := (h.entry q).resolve_left hq
  exact ⟨hmem, hnone, hmade⟩

/-- Growth is one step after the other: no place is made twice. -/
theorem Grown.trans {places : List Place} (h : Grown places files mid)
    (h' : Grown places mid after) : Grown places files after := by
  refine ⟨h'.longestPath.trans h.longestPath, fun q => ?_⟩
  rcases h'.entry q with hsame | ⟨hq, hmakeable, hnone, hmade⟩
  · rw [hsame]
    exact h.entry q
  · rcases h.entry q with hsame' | ⟨_, _, _, hmade'⟩
    · exact Or.inr ⟨hq, h.makeable_iff.mp hmakeable, hsame' ▸ hnone, hmade⟩
    · rw [hnone] at hmade'
      cases hmade'

theorem makeDirectory_of_makeable (h : files.Makeable place) :
    ∃ after, files.makeDirectory place = some after ∧ Grown [place] files after ∧
      after.get? place = some .directory := by
  rcases h with hdirectory | ⟨hnone, hnames⟩
  · refine ⟨files, ?_, Grown.refl _ _, hdirectory⟩
    rw [makeDirectory, hdirectory]
  · have hroot : place ≠ [] := by
      rintro rfl
      rw [get?_root] at hnone
      cases hnone
    have hget := get?_set hroot files .directory
    refine ⟨files.set place .directory, ?_, ⟨rfl, fun q => ?_⟩, ?_⟩
    · rw [makeDirectory, hnone]
      exact if_pos hnames
    · rw [hget]
      by_cases hq : q = place
      · subst hq
        exact Or.inr ⟨List.mem_singleton_self q, Or.inr ⟨hnone, hnames⟩, hnone,
          Function.update_self ..⟩
      · exact Or.inl (Function.update_of_ne hq ..)
    · rw [hget, Function.update_self]

theorem makeDirectory_of_not_makeable (h : ¬files.Makeable place) :
    files.makeDirectory place = none := by
  obtain ⟨hdirectory, hnone⟩ := not_or.mp h
  rw [makeDirectory]
  split
  · rename_i heq
    exact absurd heq hdirectory
  · rfl
  · rename_i heq
    exact if_neg fun hnames => hnone ⟨heq, hnames⟩

/-- **Making directories gets to the end if all places can be directories.** It makes those that are
missing, as far as it gets. -/
theorem makeDirectories_spec (places : List Place) (files : FileSystem) :
    ∃ after, Grown places files after ∧
      ((∀ p ∈ places, files.Makeable p) ∧ files.makeDirectories places = (after, true) ∧
          (∀ p ∈ places, after.get? p = some .directory) ∨
        ¬(∀ p ∈ places, files.Makeable p) ∧ files.makeDirectories places = (after, false)) := by
  induction places generalizing files with
  | nil =>
      have hempty : ∀ {P : Place → Prop}, ∀ p ∈ ([] : List Place), P p :=
        fun _ hp => absurd hp List.not_mem_nil
      exact ⟨files, Grown.refl _ _, Or.inl ⟨hempty, rfl, hempty⟩⟩
  | cons place places ih =>
      by_cases hplace : files.Makeable place
      · obtain ⟨mid, hmid, hgrown, hmade⟩ := makeDirectory_of_makeable hplace
        obtain ⟨after, hafter, hend⟩ := ih mid
        have hsub : Grown (place :: places) files after :=
          (hgrown.mono fun p hp => List.mem_singleton.mp hp ▸ List.mem_cons_self).trans
            (hafter.mono fun p hp => List.mem_cons_of_mem place hp)
        -- one directory more changes nothing about which places can be directories
        have hall : (∀ p ∈ place :: places, files.Makeable p) ↔
            ∀ p ∈ places, mid.Makeable p := by
          rw [List.forall_mem_cons]
          exact ⟨fun h p hp => hgrown.makeable_iff.mpr (h.2 p hp),
            fun h => ⟨hplace, fun p hp => hgrown.makeable_iff.mp (h p hp)⟩⟩
        rw [hall, makeDirectories, hmid]
        refine ⟨after, hsub, hend.imp_left fun ⟨hmakeable, hrun, hdirectories⟩ =>
          ⟨hmakeable, hrun, ?_⟩⟩
        exact List.forall_mem_cons.mpr ⟨hafter.directory hmade, hdirectories⟩
      · refine ⟨files, Grown.refl _ _, Or.inr ⟨fun hall => hplace (hall _ List.mem_cons_self), ?_⟩⟩
        rw [makeDirectories, makeDirectory_of_not_makeable hplace]

/-- Which paths are possible depends on nothing but how long they may be. -/
theorem isPossiblePath_congr (h : after.longestPath = files.longestPath) (path : String) :
    after.isPossiblePath path = files.isPossiblePath path := by
  rw [isPossiblePath, h, isPossiblePath]

/-- The places that a path leads past. -/
def way (path : String) : List Place := trail [] (pathSteps path)

/-- The way to a directory with this path can be made. -/
def CanEnsure (files : FileSystem) (path : String) : Prop :=
  files.isPossiblePath path = true ∧ ∀ p ∈ way path, files.Makeable p

/-- **Ensuring a path.** -/
theorem ensurePath_spec (hpath : endsHere path = false) (files : FileSystem) :
    ∃ after, Grown (way path) files after ∧
      (files.CanEnsure path ∧ files.ensurePath path = (after, true) ∧
          (∀ p ∈ way path, after.get? p = some .directory) ∨
        ¬files.CanEnsure path ∧ files.ensurePath path = (after, false)) := by
  by_cases hpossible : files.isPossiblePath path = true
  · obtain ⟨after, hgrown, hend⟩ := makeDirectories_spec (way path) files
    have hrun : files.ensurePath path = files.makeDirectories (way path) := by
      simp only [ensurePath, hpossible, hpath]
      rfl
    rw [hrun, CanEnsure, and_iff_right hpossible]
    exact ⟨after, hgrown, hend⟩
  · refine ⟨files, Grown.refl _ _, Or.inr ⟨fun h => hpossible h.1, ?_⟩⟩
    simp only [ensurePath, hpossible]
    rfl

/-! ## Ways -/

theorem step_of_not_isStep {name : String} (h : isStep name = false) (place : Place) :
    step place name = place := by
  rw [step, h]
  rfl

/-- One name further from a place. -/
theorem step_entryName {name : String} (h : IsEntryName name) (place : Place) :
    step place name = place ++ [name] := by
  rw [step, h.isStep, if_neg (by decide), if_neg h.notUp]

theorem trail_append (place : Place) (names more : List String) :
    trail place (names ++ more) = trail place names ++ trail (destination place names) more := by
  induction names generalizing place with
  | nil => rfl
  | cons name names ih =>
      rw [List.cons_append, trail, trail, ih, List.cons_append]
      rfl

theorem destination_append (place : Place) (names more : List String) :
    destination place (names ++ more) = destination (destination place names) more :=
  List.foldl_append

/-- Names that lead nowhere may be left out. -/
theorem destination_filter (place : Place) (names : List String) :
    destination place (names.filter isStep) = destination place names := by
  induction names generalizing place with
  | nil => rfl
  | cons name names ih =>
      by_cases hname : isStep name = true
      · rw [List.filter_cons_of_pos hname]
        exact ih _
      · rw [List.filter_cons_of_neg hname, ih]
        exact congrArg (destination · names) (step_of_not_isStep (eq_false_of_ne_true hname) _).symm

/-- The places that names lead past are those that the names lead past that lead somewhere, and
perhaps the first place. -/
theorem mem_trail_filter {place p : Place} {names : List String} (hp : p ≠ place) :
    p ∈ trail place (names.filter isStep) ↔ p ∈ trail place names := by
  induction names generalizing place with
  | nil => exact Iff.rfl
  | cons name names ih =>
      by_cases hname : isStep name = true
      · rw [List.filter_cons_of_pos hname, trail, trail, List.mem_cons, List.mem_cons]
        by_cases hstep : p = step place name
        · exact iff_of_true (Or.inl hstep) (Or.inl hstep)
        · rw [ih hstep]
      · rw [List.filter_cons_of_neg hname, trail, step_of_not_isStep (eq_false_of_ne_true hname),
          List.mem_cons, ih hp, or_iff_right hp]

/-- The place of an entry of a directory. -/
def entryPlace (directory name : String) : Place := destination [] (pathSteps directory) ++ [name]

section Entries

variable {directory name : String}

/-- The way to an entry is the way to the directory, and then the entry. -/
theorem way_joinPath (directory : String) (h : IsEntryName name) :
    way (joinPath directory name) = way directory ++ [entryPlace directory name] := by
  rw [way, pathSteps_joinPath directory h, trail_append, way, trail, step_entryName h]
  rfl

theorem destination_joinPath (directory : String) (h : IsEntryName name) :
    destination [] (pathSteps (joinPath directory name)) = entryPlace directory name := by
  rw [pathSteps_joinPath directory h, destination_append]
  exact step_entryName h _

theorem entryPlace_ne_root : entryPlace directory name ≠ [] :=
  List.append_ne_nil_of_right_ne_nil _ (List.cons_ne_nil _ _)

/-- Entries of one directory are at different places if they have different names. -/
theorem entryPlace_injective (directory : String) : Function.Injective (entryPlace directory) := by
  intro name name' h
  exact List.singleton_inj.mp (List.append_cancel_left h)

/-! ## Writing files -/

/-- The path of an entry can be followed. -/
structure Reaches (files : FileSystem) (directory name : String) : Prop where
  possiblePath : files.isPossiblePath (joinPath directory name) = true
  possibleName : isPossibleName name = true
  way : ∀ p ∈ way directory, files.get? p = some .directory

open Classical in
theorem filePlace?_joinPath (files : FileSystem) (directory : String) (h : IsEntryName name) :
    files.filePlace? (joinPath directory name) =
      if files.Reaches directory name then some (entryPlace directory name) else none := by
  obtain ⟨names, hnames, hsteps⟩ := pathNames_joinPath directory h
  have hway : (trail [] names).all files.isDirectory = true ↔
      ∀ p ∈ way directory, files.get? p = some .directory := by
    rw [List.all_eq_true, way, ← hsteps]
    refine forall_congr' fun p => ?_
    rw [isDirectory_iff]
    by_cases hp : p = []
    · subst hp
      exact iff_of_true (fun _ => get?_root files) fun _ => get?_root files
    · rw [mem_trail_filter hp]
  have hplace : destination [] names ++ [name] = entryPlace directory name := by
    rw [entryPlace, ← hsteps, destination_filter]
  have hreaches : (files.isPossiblePath (joinPath directory name) &&
      (trail [] names).all files.isDirectory && isStep name && name ≠ ".." &&
        isPossibleName name) = true ↔ files.Reaches directory name := by
    simp only [Bool.and_eq_true, decide_eq_true_eq, hway, h.isStep, h.notUp, ne_eq,
      not_false_eq_true, and_true]
    exact ⟨fun ⟨⟨hpath, hway⟩, hname⟩ => ⟨hpath, hname, hway⟩,
      fun hr => ⟨⟨hr.possiblePath, hr.way⟩, hr.possibleName⟩⟩
  rw [filePlace?]
  simp only [hnames, List.getLast?_concat, List.dropLast_concat]
  rw [hplace]
  by_cases hr : files.Reaches directory name
  · rw [if_pos hr, if_pos (hreaches.mpr hr)]
  · rw [if_neg hr, if_neg fun hc => hr (hreaches.mp hc)]

/-- The path of an entry leads to the place of the entry, if anywhere. -/
theorem eq_entryPlace_of_filePlace? (h : IsEntryName name)
    (hplace : files.filePlace? (joinPath directory name) = some place) :
    place = entryPlace directory name := by
  rw [filePlace?_joinPath files directory h] at hplace
  split at hplace
  · exact (Option.some.inj hplace).symm
  · cases hplace

/-- The contents of an entry are found if the path can be followed and a file is there. -/
theorem contents?_eq_some_iff (h : IsEntryName name) {text : String} :
    files.contents? (joinPath directory name) = some text ↔
      files.Reaches directory name ∧
        files.get? (entryPlace directory name) = some (.file text) := by
  rw [contents?, filePlace?_joinPath files directory h]
  by_cases hr : files.Reaches directory name
  · rw [if_pos hr, Option.bind_some, and_iff_right hr]
    cases files.get? (entryPlace directory name) with
    | none => simp
    | some entry => cases entry <;> simp
  · rw [if_neg hr]
    exact iff_of_false (fun hnone => nomatch hnone) fun hboth => hr hboth.1

/-- A file can be written: the path can be followed and leads to no directory. -/
def CanStore (files : FileSystem) (directory name : String) : Prop :=
  files.Reaches directory name ∧ files.get? (entryPlace directory name) ≠ some .directory

theorem store?_of_canStore (hname : IsEntryName name) (h : files.CanStore directory name)
    (text : String) : files.store? (joinPath directory name) text =
      some (files.set (entryPlace directory name) (.file text)) := by
  rw [store?, filePlace?_joinPath files directory hname, if_pos h.1]
  exact if_neg fun hdirectory => h.2 (isDirectory_iff.mp hdirectory)

theorem store?_of_not_canStore (hname : IsEntryName name) (h : ¬files.CanStore directory name)
    (text : String) : files.store? (joinPath directory name) text = none := by
  rw [store?, filePlace?_joinPath files directory hname]
  by_cases hr : files.Reaches directory name
  · rw [if_pos hr]
    refine if_pos (isDirectory_iff.mpr ?_)
    by_contra hdirectory
    exact h ⟨hr, hdirectory⟩
  · rw [if_neg hr]

end Entries

end FileSystem

end ExplicitOde
