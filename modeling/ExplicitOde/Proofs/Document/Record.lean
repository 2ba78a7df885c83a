import ExplicitOde.Document.Decode
import ExplicitOde.Proofs.Computation

/-!
# Records are read the same whatever the order of their entries

A reader goes through the entries of an object in the order of the text, and stops at the first
problem. What it accepts can be said without that order. The keys are looked at by themselves
(`Admits`), and what the entries say is filled into a draft one field after the other (`fill`):
`readFields_eq_ok_iff`.

**Entries may stand in any order** as long as a field leaves alone what other fields say:
`decodeEntries_perm`.

**A table is the same record as the text it was read from**, if no key is repeated there:
`decodeRecord_sortEntries_iff`. A table has its entries in the order of their keys, and has lost
all but the last of several entries of one key. The problems that are reported differ, since what
comes first depends on the order.
-/

namespace ExplicitOde

namespace Document

variable {β : Type} {form : RecordForm β} {entries entries' : List (Document × Document)}

/-! ## What the keys say -/

/-- The field that an entry gives, if its key names one. -/
def givenField? (form : RecordForm β) (entry : Document × Document) : Option (String × Document) :=
  match entry.1 with
  | string (some name) => if form.fields.contains name then some (name, entry.2) else none
  | _ => none

/-- The fields that are given, in the order of the entries. -/
def givenFields (form : RecordForm β) (entries : List (Document × Document)) :
    List (String × Document) :=
  entries.filterMap (givenField? form)

/-- The names of the fields that are given. -/
def givenNames (form : RecordForm β) (entries : List (Document × Document)) : List String :=
  (givenFields form entries).map Prod.fst

/-- No key of the entries is a problem after the fields in `seen`. -/
structure Admits (form : RecordForm β) (seen : List String)
    (entries : List (Document × Document)) : Prop where
  /-- A key is complete, and it names a field if others are not passed over. -/
  keys : ∀ entry ∈ entries, ∃ name, entry.1 = text name ∧
    (name ∈ form.fields ∨ form.skipsUnknown = true)
  distinct : (givenNames form entries).Nodup
  unseen : ∀ name ∈ givenNames form entries, name ∉ seen

theorem givenFields_cons_field {name : String} {value : Document} (h : name ∈ form.fields) :
    givenFields form ((text name, value) :: entries) =
      (name, value) :: givenFields form entries := by
  rw [givenFields, List.filterMap_cons_some (b := (name, value))]
  · rfl
  · simp [givenField?, text, h]

theorem givenFields_cons_other {name : String} {value : Document} (h : name ∉ form.fields) :
    givenFields form ((text name, value) :: entries) = givenFields form entries := by
  rw [givenFields, List.filterMap_cons_none]
  · rfl
  · simp [givenField?, text, h]

/-- An entry of a field is admitted if the field is new, also to the entries after it. -/
theorem admits_cons_field {seen : List String} {name : String} {value : Document}
    (h : name ∈ form.fields) :
    Admits form seen ((text name, value) :: entries) ↔
      name ∉ seen ∧ Admits form (name :: seen) entries := by
  have hnames : givenNames form ((text name, value) :: entries) =
      name :: givenNames form entries := by
    rw [givenNames, givenFields_cons_field h]
    rfl
  constructor
  · rintro ⟨hkeys, hdistinct, hunseen⟩
    rw [hnames] at hdistinct hunseen
    obtain ⟨hnew, hdistinct⟩ := List.nodup_cons.mp hdistinct
    refine ⟨hunseen name List.mem_cons_self, ?_, hdistinct, fun other hother hmem => ?_⟩
    · exact fun entry hentry => hkeys entry (List.mem_cons_of_mem _ hentry)
    · rcases List.mem_cons.mp hmem with rfl | hmem
      · exact hnew hother
      · exact hunseen other (List.mem_cons_of_mem name hother) hmem
  · rintro ⟨hseen, hkeys, hdistinct, hunseen⟩
    refine ⟨List.forall_mem_cons.mpr ⟨⟨name, rfl, Or.inl h⟩, hkeys⟩, ?_, ?_⟩
    · rw [hnames]
      exact List.nodup_cons.mpr ⟨fun hmem => hunseen name hmem List.mem_cons_self, hdistinct⟩
    · rw [hnames]
      refine List.forall_mem_cons.mpr ⟨hseen, fun other hother hmem => ?_⟩
      exact hunseen other hother (List.mem_cons_of_mem name hmem)

/-- An entry of another name is admitted if such entries are passed over. -/
theorem admits_cons_other {seen : List String} {name : String} {value : Document}
    (h : name ∉ form.fields) :
    Admits form seen ((text name, value) :: entries) ↔
      form.skipsUnknown = true ∧ Admits form seen entries := by
  have hnames : givenNames form ((text name, value) :: entries) = givenNames form entries := by
    rw [givenNames, givenFields_cons_other h]
    rfl
  constructor
  · rintro ⟨hkeys, hdistinct, hunseen⟩
    rw [hnames] at hdistinct hunseen
    obtain ⟨⟨other, hother, hadmitted⟩, hkeys⟩ := List.forall_mem_cons.mp hkeys
    -- the key is the text of one name only
    injection hother with hother
    injection hother with hother
    subst hother
    exact ⟨hadmitted.resolve_left h, hkeys, hdistinct, hunseen⟩
  · rintro ⟨hskips, hkeys, hdistinct, hunseen⟩
    refine ⟨List.forall_mem_cons.mpr ⟨⟨name, rfl, Or.inr hskips⟩, hkeys⟩, ?_, ?_⟩
    · exact hnames ▸ hdistinct
    · exact hnames ▸ hunseen

/-! ## What is filled in -/

/-- Reads fields into a draft, one after the other. -/
def fill (form : RecordForm β) (draft : β) (fields : List (String × Document)) : Decoded β :=
  fields.foldlM (fun draft field => form.field field.1 field.2 draft) draft

theorem fill_cons (draft : β) (field : String × Document) (fields : List (String × Document)) :
    fill form draft (field :: fields) =
      form.field field.1 field.2 draft >>= fun draft => fill form draft fields :=
  List.foldlM_cons

section Entry

variable {seen : List String} {draft : β} {result : List String × β}

/-- Nothing is read after a key that is no complete string. -/
theorem exists_name_of_readFields {key value : Document}
    (h : readFields form seen draft ((key, value) :: entries) = .ok result) :
    ∃ name, key = text name := by
  unfold readFields at h
  split at h
  · exact ⟨_, rfl⟩
  · injection h

theorem readFields_cons_field {name : String} {value : Document} (h : name ∈ form.fields) :
    readFields form seen draft ((text name, value) :: entries) = .ok result ↔
      name ∉ seen ∧ ∃ mid, form.field name value draft = .ok mid ∧
        readFields form (name :: seen) mid entries = .ok result := by
  rw [text, readFields, if_pos (List.contains_iff_mem.mpr h)]
  by_cases hseen : name ∈ seen
  · rw [if_pos (List.contains_iff_mem.mpr hseen)]
    exact ⟨fun h => by injection h, fun h => absurd hseen h.1⟩
  · rw [if_neg (mt List.contains_iff_mem.mp hseen)]
    cases hfield : form.field name value draft with
    | error e =>
        constructor
        · intro h
          injection h
        · rintro ⟨-, mid, hmid, -⟩
          injection hmid
    | ok mid =>
        constructor
        · exact fun h => ⟨hseen, mid, rfl, h⟩
        · rintro ⟨-, mid', hmid, h⟩
          injection hmid with hmid
          exact hmid ▸ h

theorem readFields_cons_other {name : String} {value : Document} (h : name ∉ form.fields) :
    readFields form seen draft ((text name, value) :: entries) = .ok result ↔
      form.skipsUnknown = true ∧ readFields form seen draft entries = .ok result := by
  rw [text, readFields, if_neg (mt List.contains_iff_mem.mp h)]
  by_cases hskips : form.skipsUnknown = true
  · rw [if_pos hskips, and_iff_right hskips]
  · rw [if_neg hskips]
    exact ⟨fun h => by injection h, fun h => absurd h.1 hskips⟩

end Entry

/-- **Entries are read if their keys are admitted and the fields can be filled in.** -/
theorem readFields_eq_ok_iff : ∀ {entries : List (Document × Document)} {seen seen' : List String}
    {draft draft' : β}, readFields form seen draft entries = .ok (seen', draft') ↔
      Admits form seen entries ∧ fill form draft (givenFields form entries) = .ok draft' ∧
        seen' = (givenNames form entries).reverse ++ seen := by
  intro entries
  induction entries with
  | nil =>
      intro seen seen' draft draft'
      have hnone : Admits form seen [] :=
        ⟨by simp, List.nodup_nil, by simp [givenNames, givenFields]⟩
      constructor
      · intro h
        injection h with h
        obtain ⟨rfl, rfl⟩ := Prod.mk.inj h
        exact ⟨hnone, rfl, rfl⟩
      · rintro ⟨-, hfill, rfl⟩
        injection hfill with hfill
        exact hfill ▸ rfl
  | cons entry entries ih =>
      intro seen seen' draft draft'
      obtain ⟨key, value⟩ := entry
      -- a key is a field, another text, or no text at all
      by_cases hkey : ∃ name, key = text name
      · obtain ⟨name, rfl⟩ := hkey
        by_cases hname : name ∈ form.fields
        · rw [readFields_cons_field hname, admits_cons_field hname, givenNames,
            givenFields_cons_field hname, fill_cons, bind_eq_ok_iff, List.map_cons,
            List.reverse_cons, List.append_assoc]
          constructor
          · rintro ⟨hseen, mid, hmid, hrest⟩
            obtain ⟨hadmits, hfill, hseen'⟩ := ih.mp hrest
            exact ⟨⟨hseen, hadmits⟩, ⟨mid, hmid, hfill⟩, hseen'⟩
          · rintro ⟨⟨hseen, hadmits⟩, ⟨mid, hmid, hfill⟩, hseen'⟩
            exact ⟨hseen, mid, hmid, ih.mpr ⟨hadmits, hfill, hseen'⟩⟩
        · rw [readFields_cons_other hname, admits_cons_other hname, givenNames,
            givenFields_cons_other hname, ih, and_assoc]
          rfl
      · constructor
        · exact fun h => absurd (exists_name_of_readFields h) hkey
        · rintro ⟨hadmits, -⟩
          obtain ⟨name, hname, -⟩ := hadmits.keys _ List.mem_cons_self
          exact absurd ⟨name, hname⟩ hkey

/-- **An object is the record whose fields it gives**, if it is closed, its keys are admitted and no
required field is missing. -/
theorem decodeEntries_eq_ok_iff {draft d : β} {closed : Bool} :
    decodeEntries form draft entries closed = .ok d ↔
      closed = true ∧ Admits form [] entries ∧
        (∀ name ∈ form.required, name ∈ givenNames form entries) ∧
        fill form draft (givenFields form entries) = .ok d := by
  unfold decodeEntries
  simp only [bind_eq_ok_iff, Prod.exists, readFields_eq_ok_iff, List.append_nil]
  cases closed with
  | false =>
      constructor
      · rintro ⟨_, _, -, h⟩
        injection h
      · exact fun h => Bool.noConfusion h.1
  | true =>
      simp only [Bool.not_true, Bool.false_eq_true, if_false]
      constructor
      · rintro ⟨seen, mid, ⟨hadmits, hfill, rfl⟩, h⟩
        split at h
        · injection h
        · rename_i hrequired
          injection h with h
          subst h
          refine ⟨trivial, hadmits, fun name hname => ?_, hfill⟩
          simpa using List.find?_eq_none.mp hrequired name hname
      · rintro ⟨-, hadmits, hrequired, hfill⟩
        have hnone : form.required.find? (fun name =>
            !(givenNames form entries).reverse.contains name) = none :=
          List.find?_eq_none.mpr fun name hname => by simpa using hrequired name hname
        refine ⟨_, d, ⟨hadmits, hfill, rfl⟩, ?_⟩
        rw [hnone]
        rfl

/-! ## The order of the entries -/

/-- Fields of different names can be read in either order. -/
def RecordForm.Independent (form : RecordForm β) : Prop :=
  ∀ {name other : String} {value otherValue : Document} {draft mid d : β}, name ≠ other →
    form.field name value draft = .ok mid → form.field other otherValue mid = .ok d →
    ∃ mid', form.field other otherValue draft = .ok mid' ∧ form.field name value mid' = .ok d

theorem Admits.perm {seen : List String} (h : Admits form seen entries)
    (hperm : entries.Perm entries') : Admits form seen entries' := by
  have hnames : (givenNames form entries).Perm (givenNames form entries') :=
    (hperm.filterMap _).map _
  exact ⟨fun entry hentry => h.keys entry (hperm.mem_iff.mpr hentry),
    hnames.nodup_iff.mp h.distinct, fun name hname => h.unseen name (hnames.mem_iff.mpr hname)⟩

/-- Different fields are filled in with the same result in any order. -/
theorem fill_perm (hform : form.Independent) {fields fields' : List (String × Document)}
    (hperm : fields.Perm fields') : (fields.map Prod.fst).Nodup → ∀ {draft d : β},
    fill form draft fields = .ok d → fill form draft fields' = .ok d := by
  induction hperm with
  | nil => exact fun _ _ _ h => h
  | cons field _ ih =>
      intro hdistinct draft d h
      rw [fill_cons] at h ⊢
      obtain ⟨mid, hmid, h⟩ := bind_eq_ok_iff.mp h
      exact bind_eq_ok_iff.mpr ⟨mid, hmid, ih (List.nodup_cons.mp hdistinct).2 h⟩
  | swap field other fields =>
      intro hdistinct draft d h
      simp only [fill_cons, bind_eq_ok_iff] at h ⊢
      obtain ⟨mid, hother, mid', hfield, h⟩ := h
      have hne : other.1 ≠ field.1 := fun heq =>
        (List.nodup_cons.mp hdistinct).1 (heq ▸ List.mem_cons_self)
      obtain ⟨first, hfirst, hsecond⟩ := hform hne hother hfield
      exact ⟨first, hfirst, mid', hsecond, h⟩
  | trans hperm _ ih ih' =>
      intro hdistinct draft d h
      exact ih' ((hperm.map Prod.fst).nodup_iff.mp hdistinct) (ih hdistinct h)

/-- **Objects with the same entries are the same record.** -/
theorem decodeEntries_perm (hform : form.Independent) {draft d : β} {closed : Bool}
    (hperm : entries.Perm entries') :
    decodeEntries form draft entries closed = .ok d ↔
      decodeEntries form draft entries' closed = .ok d := by
  have hone : ∀ {entries entries' : List (Document × Document)}, entries.Perm entries' →
      decodeEntries form draft entries closed = .ok d →
      decodeEntries form draft entries' closed = .ok d := by
    intro entries entries' hperm h
    obtain ⟨hclosed, hadmits, hrequired, hfill⟩ := decodeEntries_eq_ok_iff.mp h
    have hfields : (givenFields form entries).Perm (givenFields form entries') :=
      hperm.filterMap _
    refine decodeEntries_eq_ok_iff.mpr ⟨hclosed, hadmits.perm hperm, fun name hname => ?_,
      fill_perm hform hfields hadmits.distinct hfill⟩
    exact (hfields.map Prod.fst).mem_iff.mp (hrequired name hname)
  exact ⟨hone hperm, hone hperm.symm⟩

/-! ## Lists -/

/-- **A list is read as the same record from a text and from a table**, as the two differ in what
they report only. -/
theorem decodeItems_table_iff {draft d : β} {items : List Document} {closed : Bool} :
    decodeItems .table form draft items closed = .ok d ↔
      decodeItems .text form draft items closed = .ok d := by
  unfold decodeItems
  simp only [bind_eq_ok_iff, Prod.exists]
  refine exists_congr fun mid => exists_congr fun absent => exists_congr fun surplus =>
    and_congr_right fun _ => ?_
  by_cases hsurplus : (!surplus.isEmpty) = true
  · rw [if_pos hsurplus, if_pos hsurplus]
    exact ⟨fun h => by injection h, fun h => by injection h⟩
  · rw [if_neg hsurplus, if_neg hsurplus]

/-! ## Tables -/

/-- No two entries of an object have one key. Nothing is asked of the documents that are held. -/
def KeysDistinct : Document → Prop
  | object entries _ => entries.Pairwise fun a b => a.1.keyText ≠ b.1.keyText
  | _ => True

/-- An entry with a key of its own is put beside the others. -/
theorem insertEntry_perm {entry : Document × Document} {entries : List (Document × Document)}
    (h : ∀ other ∈ entries, other.1.keyText ≠ entry.1.keyText) :
    (insertEntry entry entries).Perm (entry :: entries) := by
  induction entries with
  | nil => exact .refl _
  | cons other entries ih =>
      obtain ⟨hother, hentries⟩ := List.forall_mem_cons.mp h
      rw [insertEntry]
      split_ifs with hbefore hafter
      · exact .refl _
      · exact ((ih hentries).cons other).trans (.swap entry other entries)
      · exact absurd (String.le_antisymm (String.not_lt.mp hbefore) (String.not_lt.mp hafter))
          hother

/-- **A table has all entries of an object without repeated keys.** -/
theorem foldl_insertEntry_perm : ∀ {entries sorted : List (Document × Document)},
    (entries ++ sorted).Pairwise (fun a b => a.1.keyText ≠ b.1.keyText) →
    (entries.foldl (fun sorted entry => insertEntry entry sorted) sorted).Perm
      (entries ++ sorted) := by
  intro entries
  induction entries with
  | nil => exact fun _ => .refl _
  | cons entry entries ih =>
      intro sorted h
      obtain ⟨hentry, hrest⟩ := List.pairwise_cons.mp h
      have hput : (insertEntry entry sorted).Perm (entry :: sorted) :=
        insertEntry_perm fun other hother =>
          (hentry other (List.mem_append_right entries hother)).symm
      have hmove : (entries ++ insertEntry entry sorted).Perm (entry :: (entries ++ sorted)) :=
        (hput.append_left entries).trans List.perm_middle
      rw [List.foldl_cons]
      refine (ih ?_).trans hmove
      exact (hmove.pairwise_iff fun hne => hne.symm).mpr h

/-- **A table is the same record as the text it was read from.** -/
theorem decodeRecord_sortEntries_iff (hform : form.Independent) {draft r : β} {d : Document}
    (hkeys : d.KeysDistinct) :
    decodeRecord .table form draft d.sortEntries = .ok r ↔
      decodeRecord .text form draft d = .ok r := by
  cases d with
  | object entries closed =>
      have hdistinct : (entries ++ []).Pairwise
          fun a b : Document × Document => a.1.keyText ≠ b.1.keyText := by
        rw [List.append_nil]
        exact hkeys
      have hperm := foldl_insertEntry_perm hdistinct
      rw [List.append_nil] at hperm
      exact decodeEntries_perm hform hperm
  | array items closed => exact decodeItems_table_iff
  | null | bool | number | string | broken => exact Iff.rfl

end Document

end ExplicitOde
