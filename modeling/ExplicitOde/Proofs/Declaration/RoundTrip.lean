import ExplicitOde.Proofs.Declaration.Readers
import ExplicitOde.Proofs.Document.Writer

/-!
# Declarations come back from their texts

The document of a declaration leaves out a description and parameters that are absent, and the
draft that a reader starts from has them absent. So only the entries that are there decide, and an
empty list of parameters stays apart from no list.

A table holds the entries in the order of their keys. As no key is repeated, it spells the same
declaration.
-/

namespace ExplicitOde

namespace Declaration

open Document (Whole)

/-! ## The document is whole -/

theorem whole_textList (texts : List String) : (textList texts).Whole := by
  refine .list fun item hitem => ?_
  obtain ⟨s, _, rfl⟩ := List.mem_map.mp hitem
  exact .text s

theorem whole_optionalEntry {β : Type} {field : String} {write : β → Document}
    (h : ∀ value, (write value).Whole) {value? : Option β} {entry : String × Document}
    (hentry : entry ∈ optionalEntry field write value?) : entry.2.Whole := by
  cases value? with
  | none => exact absurd hentry List.not_mem_nil
  | some value =>
      rw [List.mem_singleton.mp hentry]
      exact h value

/-- Nothing is missing in the document of a declaration. -/
theorem whole_toDocument (d : Declaration) : d.toDocument.Whole := by
  refine .record fun entry hentry => ?_
  simp only [List.mem_append, List.mem_cons, List.not_mem_nil, or_false] at hentry
  rcases hentry with ((((rfl | rfl | rfl) | hdescription) | rfl | rfl) | hp) | rfl
  · exact .text _
  · exact .text _
  · exact .text _
  · exact whole_optionalEntry .text hdescription
  · exact whole_textList _
  · exact whole_textList _
  · exact whole_optionalEntry whole_textList hp
  · exact whole_textList _

/-! ## The document is decoded -/

theorem decodeStrings_textList (texts : List String) :
    (textList texts).decodeStrings = .ok texts := by
  have hitems : (texts.map Document.text).mapM (Document.decodeString .string) = .ok texts := by
    induction texts with
    | nil => rfl
    | cons s texts ih =>
        rw [List.map_cons, List.mapM_cons, ih]
        rfl
  rw [textList, Document.list, Document.decodeStrings, Document.decodeList, hitems]
  rfl

theorem decodeOption_string (s : String) :
    (Document.string (some s)).decodeOption (Document.decodeString .string) = .ok (some s) := rfl

/-- A list is there, even if it is empty. -/
theorem decodeOption_textList (texts : List String) :
    (textList texts).decodeOption Document.decodeStrings = .ok (some texts) := by
  have hsome : (textList texts).decodeOption Document.decodeStrings =
      some <$> (textList texts).decodeStrings := rfl
  rw [hsome, decodeStrings_textList]
  rfl

theorem decodeRecord_toDocument (d : Declaration) :
    Document.decodeRecord .text form blank d.toDocument = .ok d := by
  obtain ⟨schema, name, representation, description, x, u, p, rates⟩ := d
  cases description <;> cases p <;>
  simp [toDocument, optionalEntry, Document.record, Document.text, Document.decodeRecord,
    Document.decodeEntries, Document.readFields, form, readField, blank, Document.decodeString,
    decodeOption_string, decodeStrings_textList, decodeOption_textList, bind, Except.bind, pure,
    Except.pure]

theorem keysDistinct_toDocument (d : Declaration) : d.toDocument.KeysDistinct := by
  obtain ⟨schema, name, representation, description, x, u, p, rates⟩ := d
  cases description <;> cases p <;>
  simp [toDocument, optionalEntry, Document.record, Document.text, Document.KeysDistinct,
    Document.keyText]

theorem decodeRecord_sortEntries (d : Declaration) :
    Document.decodeRecord .table form blank d.toDocument.sortEntries = .ok d :=
  (Document.decodeRecord_sortEntries_iff independent_form d.keysDistinct_toDocument).mpr
    d.decodeRecord_toDocument

/-! ## There and back -/

theorem accept_ok {d : Declaration} (h : d.schema ∈ supportedSchemas) :
    accept (.ok d) = .ok d :=
  accept_eq_ok_iff.mpr ⟨rfl, h⟩

/-- **A declaration of a supported version is read back from its text**, and also from the document
of this text as a table. The text is this one document and nothing else. -/
theorem ofText_toText {d : Declaration} (h : d.schema ∈ supportedSchemas) :
    ofText d.toText = .ok d ∧ Document.read d.toText = (d.toDocument, true) ∧
      ofDocument (Document.read d.toText).1 = .ok d := by
  have hread : Document.read d.toText = (d.toDocument, true) := d.whole_toDocument.read_pretty
  refine ⟨?_, hread, ?_⟩
  · rw [ofText, Document.decodeText, hread]
    dsimp only
    rw [decodeRecord_toDocument]
    exact accept_ok h
  · rw [ofDocument, hread]
    dsimp only
    rw [decodeRecord_sortEntries]
    exact accept_ok h

/-- Quotes, backslashes, controls and characters beyond the first plane, a description that looks
like an absent one, and no parameters in a list of parameters. -/
theorem ofText_toText_escapes :
    let d : Declaration := ⟨"1.0", "a\"b\\c", "", some "null", ["\n\t\x00\x7f"], ["😀\u2028/"],
      some [], [""]⟩
    d.schema ∈ supportedSchemas ∧ ofText d.toText = .ok d ∧
      ofDocument (Document.read d.toText).1 = .ok d := by
  have h : "1.0" ∈ supportedSchemas := by decide
  exact ⟨h, (ofText_toText h).1, (ofText_toText h).2.2⟩

end Declaration

end ExplicitOde
