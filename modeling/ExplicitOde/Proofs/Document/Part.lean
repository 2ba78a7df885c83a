import ExplicitOde.Proofs.Document.Record
import Mathlib.Data.List.Nodup

/-!
# Records by their parts

A part of a record is what one field says and no other does: `Part`. **An entry of that name decides
the part, and without one it stays as it is in the draft**: `Part.said`. For a record without
required fields this is all there is to be known of its entries, so it is read the same where

- the entries stand in another order,
- there are more entries or fewer of names that are no fields,
- a field is left out that says what the draft has anyway.

`Restated` puts these changes together, and with them any change of a value that says the same.
-/

namespace ExplicitOde

namespace Document

variable {β γ : Type} {form : RecordForm β} {entries entries' : List (Document × Document)}

/-! ## What is said by an entry -/

/-- What the entry of this name says, or what is there without such an entry. -/
def Said (entries : List (Document × Document)) (name : String) (decode : Document → Decoded γ)
    (absent said : γ) : Prop :=
  (∃ value, (text name, value) ∈ entries ∧ decode value = .ok said) ∨
    (∀ value, (text name, value) ∉ entries) ∧ said = absent

theorem text_injective {s t : String} (h : text s = text t) : s = t := by
  injection h with h
  exact Option.some.inj h

section

variable {name other : String} {value value' : Document} {decode : Document → Decoded γ}
  {absent said : γ}

theorem Said.perm (h : Said entries name decode absent said) (hperm : entries.Perm entries') :
    Said entries' name decode absent said := by
  obtain ⟨value, hmem, hdecode⟩ | ⟨hnone, hsaid⟩ := h
  · exact Or.inl ⟨value, hperm.mem_iff.mp hmem, hdecode⟩
  · exact Or.inr ⟨fun value hmem => hnone value (hperm.mem_iff.mpr hmem), hsaid⟩

/-- An entry says nothing of other names. -/
theorem said_cons_of_ne (hne : other ≠ name) :
    Said ((text other, value) :: entries) name decode absent said ↔
      Said entries name decode absent said := by
  have hmem : ∀ v, (text name, v) ∈ (text other, value) :: entries ↔ (text name, v) ∈ entries := by
    intro v
    rw [List.mem_cons]
    refine or_iff_right fun heq => hne ?_
    exact text_injective (Prod.mk.inj heq).1.symm
  simp only [Said, hmem]

/-- The entry of a name is the only one that counts, if it is the only one. -/
theorem said_cons_self (hnone : ∀ v, (text name, v) ∉ entries) :
    Said ((text name, value) :: entries) name decode absent said ↔ decode value = .ok said := by
  constructor
  · rintro (⟨v, hmem, hdecode⟩ | ⟨hnone', _⟩)
    · rcases List.mem_cons.mp hmem with heq | hmem
      · rwa [(Prod.mk.inj heq).2] at hdecode
      · exact absurd hmem (hnone v)
    · exact absurd List.mem_cons_self (hnone' value)
  · exact fun hdecode => Or.inl ⟨value, List.mem_cons_self, hdecode⟩

/-- Without an entry. -/
theorem said_of_not_mem (hnone : ∀ v, (text name, v) ∉ entries) :
    Said entries name decode absent said ↔ said = absent := by
  constructor
  · rintro (⟨v, hmem, _⟩ | ⟨_, hsaid⟩)
    · exact absurd hmem (hnone v)
    · exact hsaid
  · exact fun hsaid => Or.inr ⟨hnone, hsaid⟩

end

/-! ## Fields that are given -/

theorem mem_givenFields {name : String} {value : Document} :
    (name, value) ∈ givenFields form entries ↔
      (text name, value) ∈ entries ∧ name ∈ form.fields := by
  rw [givenFields, List.mem_filterMap]
  constructor
  · rintro ⟨⟨key, v⟩, hmem, hgiven⟩
    unfold givenField? at hgiven
    split at hgiven
    · rename_i s hkey
      split_ifs at hgiven with hlisted
      obtain ⟨rfl, rfl⟩ := Prod.mk.inj (Option.some.inj hgiven)
      obtain rfl : key = text s := hkey
      exact ⟨hmem, List.contains_iff_mem.mp hlisted⟩
    · cases hgiven
  · rintro ⟨hmem, hlisted⟩
    exact ⟨_, hmem, by simp [givenField?, text, hlisted]⟩

/-- A field is given once. -/
theorem Admits.unique {seen : List String} {name : String} {value value' : Document}
    (h : Admits form seen entries) (hlisted : name ∈ form.fields)
    (hmem : (text name, value) ∈ entries) (hmem' : (text name, value') ∈ entries) :
    value = value' :=
  (Prod.mk.inj (List.inj_on_of_nodup_map h.distinct (mem_givenFields.mpr ⟨hmem, hlisted⟩)
    (mem_givenFields.mpr ⟨hmem', hlisted⟩) rfl)).2

/-- An entry of a field is admitted where the field is not given yet. -/
theorem admits_cons_new {name : String} {value : Document} (hlisted : name ∈ form.fields)
    (hnone : ∀ v, (text name, v) ∉ entries) :
    Admits form [] ((text name, value) :: entries) ↔ Admits form [] entries := by
  rw [admits_cons_field hlisted]
  constructor
  · exact fun h => ⟨h.2.keys, h.2.distinct, fun _ _ => List.not_mem_nil⟩
  · refine fun h => ⟨List.not_mem_nil, h.keys, h.distinct, fun other hother hmem => ?_⟩
    obtain rfl := List.mem_singleton.mp hmem
    obtain ⟨⟨_, v⟩, hv, rfl⟩ := List.mem_map.mp hother
    exact hnone v (mem_givenFields.mp hv).1

/-- Fields that can all be read can be filled in. -/
theorem exists_fill {fields : List (String × Document)} (h : ∀ field ∈ fields, ∀ draft, ∃ d,
    form.field field.1 field.2 draft = .ok d) : ∀ draft, ∃ d, fill form draft fields = .ok d := by
  induction fields with
  | nil => exact fun draft => ⟨draft, rfl⟩
  | cons field fields ih =>
      intro draft
      obtain ⟨hfield, hfields⟩ := List.forall_mem_cons.mp h
      obtain ⟨mid, hmid⟩ := hfield draft
      obtain ⟨d, hd⟩ := ih hfields mid
      exact ⟨d, by rw [fill_cons]; exact bind_eq_ok_iff.mpr ⟨mid, hmid, hd⟩⟩

/-! ## Parts -/

/-- A part of a record that one field says and no other. -/
structure Part (form : RecordForm β) (γ : Type) where
  name : String
  decode : Document → Decoded γ
  get : β → γ
  set : γ → β → β
  listed : name ∈ form.fields
  get_set : ∀ said draft, get (set said draft) = said
  field_eq : ∀ value draft,
    form.field name value draft = (decode value).map fun said => set said draft
  /-- Other fields leave it alone. -/
  others : ∀ {other value draft d}, other ≠ name → form.field other value draft = .ok d →
    get d = get draft

namespace Part

variable (p : Part form γ) {draft d : β}

theorem field_eq_ok_iff {value : Document} :
    form.field p.name value draft = .ok d ↔
      ∃ said, p.decode value = .ok said ∧ d = p.set said draft := by
  rw [p.field_eq]
  cases p.decode value with
  | error e =>
      constructor
      · exact fun h => nomatch h
      · rintro ⟨_, h, _⟩
        exact nomatch h
  | ok said =>
      constructor
      · exact fun h => ⟨said, rfl, (Except.ok.inj h).symm⟩
      · rintro ⟨said', hsaid, rfl⟩
        rw [Except.ok.inj hsaid]
        rfl

/-- What is filled in decides the part. -/
theorem said_of_fill {fields : List (String × Document)} : ∀ {draft : β},
    fill form draft fields = .ok d → (fields.map Prod.fst).Nodup →
      (∃ value, (p.name, value) ∈ fields ∧ p.decode value = .ok (p.get d)) ∨
        p.name ∉ fields.map Prod.fst ∧ p.get d = p.get draft := by
  induction fields with
  | nil =>
      intro draft h _
      obtain rfl := Except.ok.inj h
      exact Or.inr ⟨List.not_mem_nil, rfl⟩
  | cons field fields ih =>
      intro draft h hdistinct
      rw [fill_cons] at h
      obtain ⟨mid, hmid, h⟩ := bind_eq_ok_iff.mp h
      obtain ⟨hnew, hdistinct⟩ := List.nodup_cons.mp hdistinct
      -- names are distinct, so no later field replaces what this one fills in
      by_cases hname : field.1 = p.name
      · rw [hname] at hmid hnew
        obtain ⟨said, hsaid, rfl⟩ := p.field_eq_ok_iff.mp hmid
        obtain ⟨value, hmem, _⟩ | ⟨_, hget⟩ := ih h hdistinct
        · exact absurd (List.mem_map_of_mem hmem) hnew
        · refine Or.inl ⟨field.2, hname ▸ List.mem_cons_self, ?_⟩
          rw [hget, p.get_set]
          exact hsaid
      · obtain ⟨value, hmem, hsaid⟩ | ⟨hnone, hget⟩ := ih h hdistinct
        · exact Or.inl ⟨value, List.mem_cons_of_mem field hmem, hsaid⟩
        · refine Or.inr ⟨?_, hget.trans (p.others hname hmid)⟩
          exact fun hmem => (List.mem_cons.mp hmem).elim (fun heq => hname heq.symm) hnone

/-- **The entry of its field decides a part**, and without one it is that of the draft. -/
theorem said (hadmits : Admits form [] entries)
    (hfill : fill form draft (givenFields form entries) = .ok d) :
    Said entries p.name p.decode (p.get draft) (p.get d) := by
  obtain ⟨value, hmem, hsaid⟩ | ⟨hnone, hget⟩ := p.said_of_fill hfill hadmits.distinct
  · exact Or.inl ⟨value, (mem_givenFields.mp hmem).1, hsaid⟩
  · refine Or.inr ⟨fun value hmem => hnone ?_, hget⟩
    exact List.mem_map_of_mem (mem_givenFields.mpr ⟨hmem, p.listed⟩)

/-- A field that is given and says something can be read. -/
theorem isRead {value : Document} {absent said : γ} (hadmits : Admits form [] entries)
    (h : Said entries p.name p.decode absent said)
    (hmem : (p.name, value) ∈ givenFields form entries) (draft : β) :
    ∃ d, form.field p.name value draft = .ok d := by
  have hmem := (mem_givenFields.mp hmem).1
  obtain ⟨value', hmem', hdecode⟩ | ⟨hnone, _⟩ := h
  · obtain rfl := hadmits.unique p.listed hmem' hmem
    exact ⟨_, p.field_eq_ok_iff.mpr ⟨said, hdecode, rfl⟩⟩
  · exact absurd hmem (hnone value)

/-- Entries say one thing. -/
theorem said_unique {absent said said' : γ} (hadmits : Admits form [] entries)
    (h : Said entries p.name p.decode absent said)
    (h' : Said entries p.name p.decode absent said') : said = said' := by
  obtain ⟨value, hmem, hdecode⟩ | ⟨hnone, rfl⟩ := h
  · obtain ⟨value', hmem', hdecode'⟩ | ⟨hnone, _⟩ := h'
    · obtain rfl := hadmits.unique p.listed hmem hmem'
      exact Except.ok.inj (hdecode.symm.trans hdecode')
    · exact absurd hmem (hnone value)
  · exact ((said_of_not_mem hnone).mp h').symm

end Part

/-- **An object is the record that its entries say**, if nothing is required. What they say is given
by parts: it is what comes of filling them in, it makes every field readable, and it is no two
records. -/
theorem decodeEntries_iff_of_said {draft d : β} {closed : Bool} {IsSaid : β → Prop}
    (hrequired : form.required = [])
    (hfilled : ∀ d, Admits form [] entries →
      fill form draft (givenFields form entries) = .ok d → IsSaid d)
    (hread : ∀ d, Admits form [] entries → IsSaid d → ∀ name value,
      (name, value) ∈ givenFields form entries → ∀ draft, ∃ d, form.field name value draft = .ok d)
    (hunique : ∀ d d', Admits form [] entries → IsSaid d → IsSaid d' → d = d') :
    decodeEntries form draft entries closed = .ok d ↔
      closed = true ∧ Admits form [] entries ∧ IsSaid d := by
  rw [decodeEntries_eq_ok_iff]
  constructor
  · rintro ⟨hclosed, hadmits, _, hfill⟩
    exact ⟨hclosed, hadmits, hfilled d hadmits hfill⟩
  · rintro ⟨hclosed, hadmits, hsaid⟩
    obtain ⟨d', hfill⟩ := exists_fill (fun ⟨name, value⟩ hmem =>
      hread d hadmits hsaid name value hmem) draft
    obtain rfl := hunique d' d hadmits (hfilled d' hadmits hfill) hsaid
    exact ⟨hclosed, hadmits, fun name hname => absurd (hrequired ▸ hname) List.not_mem_nil, hfill⟩

/-! ## Entries that say the same -/

/-- The entries are put in another way that says the same: in another order, with an entry more of
another name, with a field more that says what the draft has, or with a value that is put in another
way itself. -/
inductive Restated (form : RecordForm β) (draft : β) (same : String → Document → Document → Prop) :
    List (Document × Document) → List (Document × Document) → Prop where
  | order {entries entries' : List (Document × Document)} (hperm : entries.Perm entries') :
      Restated form draft same entries entries'
  | unknown {entries : List (Document × Document)} {name : String} (value : Document)
      (hname : name ∉ form.fields) :
      Restated form draft same entries ((text name, value) :: entries)
  | spelled {entries : List (Document × Document)} {name : String} {value : Document}
      (hname : name ∈ form.fields) (hnone : ∀ v, (text name, v) ∉ entries)
      (hvalue : form.field name value draft = .ok draft) :
      Restated form draft same entries ((text name, value) :: entries)
  | within {entries : List (Document × Document)} {name : String} {value value' : Document}
      (hsame : same name value value') :
      Restated form draft same ((text name, value) :: entries) ((text name, value') :: entries)
  | symm {entries entries' : List (Document × Document)}
      (h : Restated form draft same entries entries') : Restated form draft same entries' entries
  | trans {entries entries' entries'' : List (Document × Document)}
      (h : Restated form draft same entries entries')
      (h' : Restated form draft same entries' entries'') :
      Restated form draft same entries entries''

namespace Restated

variable {draft : β} {same : String → Document → Document → Prop}

theorem admits (hskips : form.skipsUnknown = true) (h : Restated form draft same entries entries') :
    Admits form [] entries ↔ Admits form [] entries' := by
  induction h with
  | order hperm => exact ⟨fun h => h.perm hperm, fun h => h.perm hperm.symm⟩
  | unknown value hname => rw [admits_cons_other hname, and_iff_right hskips]
  | spelled hname hnone => exact (admits_cons_new hname hnone).symm
  | @within entries name value value' =>
      by_cases hname : name ∈ form.fields
      · rw [admits_cons_field hname, admits_cons_field hname]
      · rw [admits_cons_other hname, admits_cons_other hname]
  | symm _ ih => exact ih.symm
  | trans _ _ ih ih' => exact ih.trans ih'

/-- **Entries that say the same say the same of every part.** -/
theorem said (p : Part form γ) {v : γ} (hsame : ∀ value value', same p.name value value' →
    ∀ v, p.decode value = .ok v ↔ p.decode value' = .ok v)
    (h : Restated form draft same entries entries') :
    Said entries p.name p.decode (p.get draft) v ↔
      Said entries' p.name p.decode (p.get draft) v := by
  induction h with
  | order hperm => exact ⟨fun h => h.perm hperm, fun h => h.perm hperm.symm⟩
  | unknown value hname =>
      refine (said_cons_of_ne ?_).symm
      rintro rfl
      exact hname p.listed
  | @spelled entries name value hname hnone hvalue =>
      by_cases heq : name = p.name
      · subst heq
        rw [said_cons_self hnone, said_of_not_mem hnone]
        obtain ⟨said, hsaid, hdraft⟩ := p.field_eq_ok_iff.mp hvalue
        have hget : p.get draft = said := by rw [hdraft, p.get_set]
        rw [hsaid, hget, Except.ok.injEq, eq_comm]
      · exact (said_cons_of_ne heq).symm
  | @within entries name value value' hvalue =>
      by_cases heq : name = p.name
      · subst heq
        -- one direction is enough, since both values may be exchanged
        have hone : ∀ {value value' : Document},
            (∀ v, p.decode value = .ok v ↔ p.decode value' = .ok v) →
            Said ((text p.name, value) :: entries) p.name p.decode (p.get draft) v →
            Said ((text p.name, value') :: entries) p.name p.decode (p.get draft) v := by
          rintro value value' hdecode (⟨w, hmem, hw⟩ | ⟨hnone, _⟩)
          · rcases List.mem_cons.mp hmem with heq | hmem
            · rw [(Prod.mk.inj heq).2, hdecode] at hw
              exact Or.inl ⟨value', List.mem_cons_self, hw⟩
            · exact Or.inl ⟨w, List.mem_cons_of_mem _ hmem, hw⟩
          · exact absurd List.mem_cons_self (hnone value)
        exact ⟨hone (hsame _ _ hvalue), hone fun v => (hsame _ _ hvalue v).symm⟩
      · rw [said_cons_of_ne heq, said_cons_of_ne heq]
  | symm _ ih => exact ih.symm
  | trans _ _ ih ih' => exact ih.trans ih'

end Restated

end Document

end ExplicitOde
