import ExplicitOde.Generation.Path
import ExplicitOde.Text.Identifier

/-!
# Paths of directories and of their entries

A path is put together of a base and the name of an entry. Whatever the base looks like, empty or
with slashes, points and doubled points in it, **the steps of the whole are those of the base and
then the name**. Names that begin with an identifier are names of entries.
-/

namespace ExplicitOde

/-! ## Names of entries -/

/-- A name that leads from a directory to one of its entries. -/
structure IsEntryName (name : String) : Prop where
  noSlash : '/' ∉ name.toList
  isStep : isStep name = true
  notUp : name ≠ ".."

theorem isNameRest_ne_slash {c : Char} (h : isNameRest c = true) : c ≠ '/' := by
  rintro rfl
  exact absurd h (by decide)

theorem isNameStart_ne_point {c : Char} (h : isNameStart c = true) : c ≠ '.' := by
  rintro rfl
  exact absurd h (by decide)

theorem isNameRest_of_isNameStart {c : Char} (h : isNameStart c = true) : isNameRest c = true := by
  rw [isNameStart, Bool.or_eq_true] at h
  rw [isNameRest, Char.isAlphanum, Bool.or_eq_true, Bool.or_eq_true]
  exact h.elim (fun ha => Or.inl (Or.inl ha)) Or.inr

/-- Whatever stands behind an identifier, if it has no slash. -/
theorem isEntryName_append {name ending : String} (h : isIdentifier name = true)
    (hending : '/' ∉ ending.toList) : IsEntryName (name ++ ending) := by
  obtain ⟨c, cs, htext, hstart, hrest⟩ : ∃ c cs, name.toList = c :: cs ∧ isNameStart c = true ∧
      ∀ c' ∈ cs, isNameRest c' = true := by
    rw [isIdentifier] at h
    split at h
    · exact Bool.noConfusion h
    · rename_i c cs htext
      rw [Bool.and_eq_true, List.all_eq_true] at h
      exact ⟨c, cs, htext, h.1, h.2⟩
  have htoList : (name ++ ending).toList = c :: (cs ++ ending.toList) := by
    rw [String.toList_append, htext, List.cons_append]
  have hne : ∀ other : String, other.toList.head? ≠ some c → name ++ ending ≠ other := by
    rintro other hother rfl
    rw [htoList] at hother
    exact hother rfl
  -- an identifier does not begin with a point, as `.` and `..` do
  have hpoint : some '.' ≠ some c := fun heq =>
    isNameStart_ne_point hstart (Option.some.inj heq).symm
  refine ⟨?_, ?_, hne ".." hpoint⟩
  · rw [htoList, List.mem_cons, List.mem_append]
    rintro (rfl | hmem | hmem)
    · exact isNameRest_ne_slash (isNameRest_of_isNameStart hstart) rfl
    · exact isNameRest_ne_slash (hrest _ hmem) rfl
    · exact hending hmem
  · rw [isStep, Bool.and_eq_true, bne_iff_ne, bne_iff_ne]
    exact ⟨hne "" (by simp), hne "." hpoint⟩

/-! ## Slashes -/

theorem betweenSlashes_ne_nil (cs : List Char) : betweenSlashes cs ≠ [] := by
  cases cs with
  | nil => exact List.cons_ne_nil _ _
  | cons c cs =>
      rw [betweenSlashes]
      split
      · exact List.cons_ne_nil _ _
      · split <;> exact List.cons_ne_nil _ _

theorem betweenSlashes_append (cs ds : List Char) :
    betweenSlashes (cs ++ '/' :: ds) = betweenSlashes cs ++ betweenSlashes ds := by
  induction cs with
  | nil => rfl
  | cons c cs ih =>
      rw [List.cons_append, betweenSlashes, betweenSlashes, ih]
      by_cases hc : c = '/'
      · rw [if_pos hc, if_pos hc]
        rfl
      · rw [if_neg hc, if_neg hc]
        obtain ⟨run, runs, hruns⟩ := List.exists_cons_of_ne_nil (betweenSlashes_ne_nil cs)
        rw [hruns]
        rfl

theorem betweenSlashes_of_noSlash {cs : List Char} (h : '/' ∉ cs) : betweenSlashes cs = [cs] := by
  induction cs with
  | nil => rfl
  | cons c cs ih =>
      obtain ⟨hc, hcs⟩ := not_or.mp (fun hmem => h (List.mem_cons.mpr hmem))
      rw [betweenSlashes, if_neg (Ne.symm hc), ih hcs]

theorem pathNames_append (a b : String) :
    pathNames (a ++ "/" ++ b) = pathNames a ++ pathNames b := by
  have hslash : ("/" : String).toList = ['/'] := rfl
  rw [pathNames, String.toList_append, String.toList_append, hslash, List.append_assoc,
    List.singleton_append, betweenSlashes_append, List.map_append]
  rfl

theorem pathNames_of_noSlash {name : String} (h : '/' ∉ name.toList) : pathNames name = [name] := by
  rw [pathNames, betweenSlashes_of_noSlash h, List.map_singleton, String.ofList_toList]

/-! ## Entries below a base -/

variable {base name : String}

/-- The names of the path of an entry, apart from its own, lead where the base leads. -/
theorem pathNames_joinPath (base : String) (h : IsEntryName name) :
    ∃ names, pathNames (joinPath base name) = names ++ [name] ∧
      names.filter isStep = pathSteps base := by
  have hrelative : ¬isAbsolute name = true := by
    rw [isAbsolute, beq_iff_eq]
    exact fun heq => h.noSlash (List.mem_of_head? heq)
  have hname := pathNames_of_noSlash h.noSlash
  rw [joinPath, if_neg hrelative]
  -- behind a base that is empty or ends with a slash, none is added
  by_cases hopen : isOpen base = true
  · rw [if_pos hopen]
    rw [isOpen] at hopen
    split at hopen
    · rename_i hempty
      obtain rfl : base = "" := by simpa using hempty
      exact ⟨[], by rw [String.empty_append, hname, List.nil_append], rfl⟩
    · rename_i c hlast
      obtain ⟨before, hbase⟩ : ∃ before : String, base = before ++ "/" := by
        obtain rfl := beq_iff_eq.mp hopen
        obtain ⟨cs, hcs⟩ := List.getLast?_eq_some_iff.mp hlast
        exact ⟨String.ofList cs, String.toList_inj.mp (by rw [hcs, String.toList_append]; simp)⟩
      refine ⟨pathNames before, ?_, ?_⟩
      · rw [hbase, pathNames_append, hname]
      · have hslash := pathNames_append before ""
        rw [String.append_empty] at hslash
        rw [hbase, pathSteps, hslash, List.filter_append]
        exact (List.append_nil _).symm
  · rw [if_neg hopen]
    exact ⟨pathNames base, by rw [pathNames_append, hname], rfl⟩

/-- **The steps of the path of an entry are those of the base and its name.** -/
theorem pathSteps_joinPath (base : String) (h : IsEntryName name) :
    pathSteps (joinPath base name) = pathSteps base ++ [name] := by
  obtain ⟨names, hnames, hsteps⟩ := pathNames_joinPath base h
  rw [pathSteps, hnames, List.filter_append, hsteps, List.filter_cons_of_pos h.isStep,
    List.filter_nil]

theorem not_endsHere_joinPath (base : String) (h : IsEntryName name) :
    endsHere (joinPath base name) = false := by
  obtain ⟨names, hnames, _⟩ := pathNames_joinPath base h
  obtain ⟨hne, hpoint⟩ : name ≠ "" ∧ name ≠ "." := by
    simpa [isStep] using h.isStep
  have hlast : ((names ++ [name]).filter (· != "")).getLast? = some name := by
    rw [List.filter_append, List.filter_cons, if_pos (bne_iff_ne.mpr hne), List.filter_nil]
    exact List.getLast?_concat
  rw [endsHere, hnames, hlast]
  exact beq_eq_false_iff_ne.mpr fun heq => hpoint (Option.some.inj heq)

end ExplicitOde
