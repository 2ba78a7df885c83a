import ExplicitOde.Declaration.Codec
import ExplicitOde.Proofs.Document.Reader
import ExplicitOde.Proofs.Document.Record

/-!
# A declaration is read the same from a text and from a table

A text is read entry by entry, as it is written. A table that was made of the text has the entries
in the order of their keys. The two readers meet different problems first, but **they accept the
same declarations**: `ofText_eq_ok_iff_ofDocument`.

The reason is that an entry asks for a change of one part of the declaration, whatever the other
parts are, and changes of different parts can be made in either order.
-/

namespace ExplicitOde

namespace Declaration

/-! ## Fields are independent -/

/-- What an entry asks for. -/
inductive Change where
  | schema (version : String)
  | name (s : String)
  | representation (s : String)
  | description (s : Option String)
  | x (names : List String)
  | u (names : List String)
  | p (names : Option (List String))
  | rates (formulas : List String)
  /-- An entry that no field has the name of asks for nothing. -/
  | nothing (field : String)

namespace Change

/-- The name of the entry. -/
def field : Change → String
  | schema _ => "schema"
  | name _ => "name"
  | representation _ => "representation"
  | description _ => "description"
  | x _ => "x"
  | u _ => "u"
  | p _ => "p"
  | rates _ => "f_expl"
  | nothing field => field

/-- The declaration after the change. -/
def apply (d : Declaration) : Change → Declaration
  | schema version => { d with schema := version }
  | name s => { d with name := s }
  | representation s => { d with representation := s }
  | description s => { d with description := s }
  | x names => { d with x := names }
  | u names => { d with u := names }
  | p names => { d with p := names }
  | rates formulas => { d with rates := formulas }
  | nothing _ => d

/-- Changes that entries of different names ask for can be made in either order. -/
theorem apply_comm {a b : Change} (h : a.field ≠ b.field) (d : Declaration) :
    b.apply (a.apply d) = a.apply (b.apply d) := by
  cases a <;> cases b <;> first | rfl | exact absurd rfl h

end Change

/-- What an entry asks for does not hang on the declaration so far. -/
theorem readField_cases (name : String) (value : Document) :
    (∃ e, ∀ d, readField name value d = .error e) ∨
      ∃ c : Change, c.field = name ∧ ∀ d, readField name value d = .ok (c.apply d) := by
  have hread : ∀ {γ : Type} (read : Document.Decoded γ) (change : γ → Change),
      (∀ s, (change s).field = name) →
      (∀ d, readField name value d = read >>= fun s => pure ((change s).apply d)) →
      (∃ e, ∀ d, readField name value d = .error e) ∨
        ∃ c : Change, c.field = name ∧ ∀ d, readField name value d = .ok (c.apply d) := by
    intro γ read change hfield h
    cases read with
    | error e => exact Or.inl ⟨e, h⟩
    | ok s => exact Or.inr ⟨change s, hfield s, h⟩
  by_cases hname : name ∈ form.fields
  · simp only [form, List.mem_cons, List.not_mem_nil, or_false] at hname
    rcases hname with rfl | rfl | rfl | rfl | rfl | rfl | rfl | rfl
    · exact hread _ Change.schema (fun _ => rfl) fun _ => rfl
    · exact hread _ Change.name (fun _ => rfl) fun _ => rfl
    · exact hread _ Change.representation (fun _ => rfl) fun _ => rfl
    · exact hread _ Change.description (fun _ => rfl) fun _ => rfl
    · exact hread _ Change.x (fun _ => rfl) fun _ => rfl
    · exact hread _ Change.u (fun _ => rfl) fun _ => rfl
    · exact hread _ Change.p (fun _ => rfl) fun _ => rfl
    · exact hread _ Change.rates (fun _ => rfl) fun _ => rfl
  · refine Or.inr ⟨.nothing name, rfl, fun d => ?_⟩
    unfold readField
    split <;> first | rfl | exact absurd (by decide) hname

theorem independent_form : form.Independent := by
  intro name other value otherValue draft mid d hne hmid hd
  have hmid : readField name value draft = .ok mid := hmid
  have hd : readField other otherValue mid = .ok d := hd
  obtain ⟨e, hname⟩ | ⟨c, rfl, hname⟩ := readField_cases name value
  · rw [hname] at hmid
    injection hmid
  obtain ⟨e, hother⟩ | ⟨c', rfl, hother⟩ := readField_cases other otherValue
  · rw [hother] at hd
    injection hd
  rw [hname] at hmid
  injection hmid with hmid
  rw [hother] at hd
  injection hd with hd
  subst hmid hd
  exact ⟨c'.apply draft, hother draft, (hname _).trans (by rw [Change.apply_comm hne])⟩

/-! ## The readers -/

theorem accept_eq_ok_iff {decoded : Document.Decoded Declaration} {d : Declaration} :
    accept decoded = .ok d ↔ decoded = .ok d ∧ d.schema ∈ supportedSchemas := by
  cases decoded with
  | error cause => exact ⟨fun h => by injection h, fun h => by injection h.1⟩
  | ok d' =>
      rw [accept, checkSchema]
      by_cases hschema : d'.schema ∈ supportedSchemas
      · rw [if_pos (List.contains_iff_mem.mpr hschema)]
        constructor
        · intro h
          injection h with h
          exact ⟨congrArg Except.ok h, h ▸ hschema⟩
        · rintro ⟨h, -⟩
          injection h with h
          exact congrArg Except.ok h
      · rw [if_neg (mt List.contains_iff_mem.mp hschema)]
        constructor
        · intro h
          injection h
        · rintro ⟨h, hsupported⟩
          injection h with h
          exact absurd (h ▸ hsupported) hschema

/-- A text spells the declaration that its document is, if nothing follows the document. -/
theorem ofText_eq_ok_iff {text : String} {document : Document}
    (hread : Document.read text = (document, true)) {d : Declaration} :
    ofText text = .ok d ↔
      Document.decodeRecord .text form blank document = .ok d ∧ d.schema ∈ supportedSchemas := by
  have hdecode : Document.decodeText (Document.decodeRecord .text form blank) text =
      Document.decodeRecord .text form blank document := by
    rw [Document.decodeText, hread]
    dsimp only
    cases Document.decodeRecord .text form blank document <;> rfl
  rw [ofText, hdecode, accept_eq_ok_iff]

/-- **A text and the table that was made of it spell the same declaration**, or none, where the
document of the text is an object that repeats no key, a list of fields, or anything else. Other
texts spell it as well whose document is an object of the same entries in another order. -/
theorem ofText_eq_ok_iff_ofDocument {text : String} {document : Document}
    (hread : Document.read text = (document, true)) (hkeys : document.KeysDistinct)
    (d : Declaration) :
    (ofText text = .ok d ↔ ofDocument document = .ok d) ∧
      ∀ {entries entries' : List (Document × Document)} {closed : Bool} {text' : String},
        document = .object entries closed → entries.Perm entries' →
        Document.read text' = (.object entries' closed, true) →
        (ofText text' = .ok d ↔ ofText text = .ok d) := by
  constructor
  · rw [ofText_eq_ok_iff hread, ofDocument, accept_eq_ok_iff,
      Document.decodeRecord_sortEntries_iff independent_form hkeys]
  · rintro entries entries' closed text' rfl hperm hread'
    rw [ofText_eq_ok_iff hread, ofText_eq_ok_iff hread']
    exact and_congr_left fun _ => (Document.decodeEntries_perm independent_form hperm).symm

/-! The description is absent, the controls are too, and there is nothing in the place of the
parameters. -/

/-- The text of a declaration. -/
def decayText : String :=
  "\x7b\"schema\":\"1.0\",\"name\":\"decay\",\"p\":null,\"x\":[\"c\"],\"f_expl\":[\"-c\"]\x7d"

/-- The same entries from the last to the first, with blanks between them. -/
def reversedText : String :=
  "\x7b \"f_expl\" : [\"-c\"],\n \"x\" :[\"c\"], \"p\" : null,\n \"name\":\"decay\", " ++
    "\"schema\" :\"1.0\" \x7d "

/-- The entries. -/
def decayEntries : List (Document × Document) :=
  [(.text "schema", .text "1.0"), (.text "name", .text "decay"), (.text "p", .null),
    (.text "x", .list [.text "c"]), (.text "f_expl", .list [.text "-c"])]

/-- The declaration. -/
def decay : Declaration where
  schema := "1.0"
  name := "decay"
  representation := "SX"
  description := none
  x := ["c"]
  u := []
  p := none
  rates := ["-c"]

open Document in
theorem read_decayText : Document.read decayText = (.object decayEntries true, true) := by
  have hreads : Reads (.object decayEntries true) decayText.toList [] := by
    unfold decayText
    simp only [String.reduceToList]
    refine .keyed rfl rfl ?_
    refine .more (.string rfl rfl) rfl (.string rfl rfl) rfl ?_
    refine .more (.string rfl rfl) rfl (.string rfl rfl) rfl ?_
    refine .more (.string rfl rfl) rfl (.null rfl) rfl ?_
    refine .more (.string rfl rfl) rfl (.singleton rfl rfl) rfl ?_
    exact .last (.string rfl rfl) rfl (.singleton rfl rfl) rfl
  exact hreads.read rfl

open Document in
theorem read_reversedText :
    Document.read reversedText = (.object decayEntries.reverse true, true) := by
  have hreads : Reads (.object decayEntries.reverse true) reversedText.toList [' '] := by
    unfold reversedText
    simp only [String.reduceAppend, String.reduceToList]
    refine .keyed rfl rfl ?_
    refine .more (.string rfl rfl) rfl (.singleton rfl rfl) rfl ?_
    refine .more (.string rfl rfl) rfl (.singleton rfl rfl) rfl ?_
    refine .more (.string rfl rfl) rfl (.null rfl) rfl ?_
    refine .more (.string rfl rfl) rfl (.string rfl rfl) rfl ?_
    exact .last (.string rfl rfl) rfl (.string rfl rfl) rfl
  exact hreads.read rfl

/-- The table spells the declaration, so the two texts do. -/
theorem ofText_eq_ok_iff_ofDocument_decay :
    Document.read decayText = (.object decayEntries true, true) ∧
      (Document.object decayEntries true).KeysDistinct ∧
      decayEntries.Perm decayEntries.reverse ∧
      Document.read reversedText = (.object decayEntries.reverse true, true) ∧
      ofDocument (.object decayEntries true) = .ok decay ∧ ofText decayText = .ok decay ∧
      ofText reversedText = .ok decay := by
  have hkeys : (Document.object decayEntries true).KeysDistinct := by
    simp [Document.KeysDistinct, decayEntries, Document.text, Document.keyText]
  have hdocument : ofDocument (.object decayEntries true) = .ok decay := by
    cbv
  obtain ⟨htext, hreversed⟩ := ofText_eq_ok_iff_ofDocument read_decayText hkeys decay
  have hperm : decayEntries.Perm decayEntries.reverse := (List.reverse_perm _).symm
  have hdecay : ofText decayText = .ok decay := htext.mpr hdocument
  exact ⟨read_decayText, hkeys, hperm, read_reversedText, hdocument, hdecay,
    (hreversed rfl hperm read_reversedText).mpr hdecay⟩

end Declaration

end ExplicitOde
