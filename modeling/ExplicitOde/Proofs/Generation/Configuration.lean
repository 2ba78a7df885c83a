import ExplicitOde.Generation.Config
import ExplicitOde.Proofs.Declaration.RoundTrip
import ExplicitOde.Proofs.Document.Part

/-!
# Configurations are read by their fields

**A configuration comes back from its text**, and **an object is the default configuration with the
fields that it gives**: `Configuration.ofText_fields`. The options of generated code are one of
these fields and are read in the same way: an object of options that gives a few of them changes
these few only, not all of them.

So what an object says stays as it is where its entries are put in another order, where unknown
entries come or go, or where a default is spelled out, and the same holds of the entries inside the
options.
-/

namespace ExplicitOde

open Document (Admits Said Whole)

/-! ## Options of generated code -/

namespace CodeOptions

section

variable {field : String} {value : Document} {entries entries' : List (Document × Document)}
  {closed : Bool} {o o' : CodeOptions}

/-- A field changes its own part and no other. -/
theorem readField_frame (h : readField field value o = .ok o') :
    (field ≠ "interop_target" → o'.gateway = o.gateway) ∧
      (field ≠ "integer_width" → o'.integers = o.integers) ∧
      (field ≠ "float_width" → o'.floats = o.floats) ∧
      (field ≠ "with_header" → o'.header = o.header) := by
  unfold readField at h
  split at h
  · obtain ⟨_, _, h⟩ := bind_eq_ok_iff.mp h
    obtain rfl := Except.ok.inj h
    exact ⟨fun hne => absurd rfl hne, fun _ => rfl, fun _ => rfl, fun _ => rfl⟩
  · obtain ⟨_, _, h⟩ := bind_eq_ok_iff.mp h
    obtain rfl := Except.ok.inj h
    exact ⟨fun _ => rfl, fun hne => absurd rfl hne, fun _ => rfl, fun _ => rfl⟩
  · obtain ⟨_, _, h⟩ := bind_eq_ok_iff.mp h
    obtain rfl := Except.ok.inj h
    exact ⟨fun _ => rfl, fun _ => rfl, fun hne => absurd rfl hne, fun _ => rfl⟩
  · obtain ⟨_, _, h⟩ := bind_eq_ok_iff.mp h
    obtain rfl := Except.ok.inj h
    exact ⟨fun _ => rfl, fun _ => rfl, fun _ => rfl, fun hne => absurd rfl hne⟩
  · obtain rfl := Except.ok.inj h
    exact ⟨fun _ => rfl, fun _ => rfl, fun _ => rfl, fun _ => rfl⟩

def gatewayPart : Document.Part form Gateway where
  name := "interop_target"
  decode := Document.decodeVariant Gateway.variants
  get := gateway
  set g o := { o with gateway := g }
  listed := by decide
  get_set _ _ := rfl
  field_eq _ _ := rfl
  others hne h := (readField_frame h).1 hne

def integersPart : Document.Part form IntegerWidth where
  name := "integer_width"
  decode := Document.decodeVariant IntegerWidth.variants
  get := integers
  set w o := { o with integers := w }
  listed := by decide
  get_set _ _ := rfl
  field_eq _ _ := rfl
  others hne h := (readField_frame h).2.1 hne

def floatsPart : Document.Part form FloatWidth where
  name := "float_width"
  decode := Document.decodeVariant FloatWidth.variants
  get := floats
  set w o := { o with floats := w }
  listed := by decide
  get_set _ _ := rfl
  field_eq _ _ := rfl
  others hne h := (readField_frame h).2.2.1 hne

def headerPart : Document.Part form Bool where
  name := "with_header"
  decode := Document.decodeBool
  get := header
  set b o := { o with header := b }
  listed := by decide
  get_set _ _ := rfl
  field_eq _ _ := rfl
  others hne h := (readField_frame h).2.2.2 hne

/-- Every option is what its entry says, or has its default without such an entry. -/
structure Given (entries : List (Document × Document)) (o : CodeOptions) : Prop where
  gateway :
    Said entries "interop_target" (Document.decodeVariant Gateway.variants) .absent o.gateway
  integers : Said entries "integer_width" (Document.decodeVariant IntegerWidth.variants) .int32
    o.integers
  floats : Said entries "float_width" (Document.decodeVariant FloatWidth.variants) .double o.floats
  header : Said entries "with_header" Document.decodeBool false o.header

/-- **An object is the default options with the fields that it gives.** -/
theorem ofDocument_object :
    ofDocument (.object entries closed) = .ok o ↔
      closed = true ∧ Admits form [] entries ∧ Given entries o := by
  refine Document.decodeEntries_iff_of_said rfl (fun o hadmits hfill => ?_)
    (fun o hadmits h name value hmem => ?_) fun o o' hadmits h h' => ?_
  · exact ⟨gatewayPart.said hadmits hfill, integersPart.said hadmits hfill,
      floatsPart.said hadmits hfill, headerPart.said hadmits hfill⟩
  · have hlisted := (Document.mem_givenFields.mp hmem).2
    simp only [form, List.mem_cons, List.not_mem_nil, or_false] at hlisted
    rcases hlisted with rfl | rfl | rfl | rfl
    · exact gatewayPart.isRead hadmits h.gateway hmem
    · exact integersPart.isRead hadmits h.integers hmem
    · exact floatsPart.isRead hadmits h.floats hmem
    · exact headerPart.isRead hadmits h.header hmem
  · cases o
    cases o'
    rw [CodeOptions.mk.injEq]
    exact ⟨gatewayPart.said_unique hadmits h.gateway h'.gateway,
      integersPart.said_unique hadmits h.integers h'.integers,
      floatsPart.said_unique hadmits h.floats h'.floats,
      headerPart.said_unique hadmits h.header h'.header⟩

/-- The entries of options are put in another way that says the same. -/
def Restated : List (Document × Document) → List (Document × Document) → Prop :=
  Document.Restated form {} fun _ _ _ => False

theorem Restated.ofDocument (h : Restated entries entries') :
    ofDocument (.object entries closed) = .ok o ↔
      ofDocument (.object entries' closed) = .ok o := by
  rw [ofDocument_object, ofDocument_object, h.admits rfl]
  refine and_congr_right fun _ => and_congr_right fun _ => ?_
  have hgateway := h.said gatewayPart (v := o.gateway) fun _ _ hsame => hsame.elim
  have hintegers := h.said integersPart (v := o.integers) fun _ _ hsame => hsame.elim
  have hfloats := h.said floatsPart (v := o.floats) fun _ _ hsame => hsame.elim
  have hheader := h.said headerPart (v := o.header) fun _ _ hsame => hsame.elim
  exact ⟨fun h => ⟨hgateway.mp h.gateway, hintegers.mp h.integers, hfloats.mp h.floats,
      hheader.mp h.header⟩,
    fun h => ⟨hgateway.mpr h.gateway, hintegers.mpr h.integers, hfloats.mpr h.floats,
      hheader.mpr h.header⟩⟩

end

theorem whole_toDocument (o : CodeOptions) : o.toDocument.Whole := by
  refine .record fun entry hentry => ?_
  simp only [List.mem_cons, List.not_mem_nil, or_false] at hentry
  rcases hentry with rfl | rfl | rfl | rfl
  · exact .text _
  · exact .text _
  · exact .text _
  · exact .bool _

/-- Options come back from their document. -/
theorem ofDocument_toDocument (o : CodeOptions) : ofDocument o.toDocument = .ok o := by
  obtain ⟨g, w, f, header⟩ := o
  cases g <;> cases w <;> cases f <;> rfl

end CodeOptions

/-! ## Configurations -/

namespace Configuration

variable {field text text' : String} {value : Document}
  {entries entries' : List (Document × Document)} {closed alone : Bool} {c c' : Configuration}

/-- A field changes its own part and no other. -/
theorem readField_frame (h : readField field value c = .ok c') :
    (field ≠ "output_base" → c'.base = c.base) ∧
      (field ≠ "codegen" → c'.code = c.code) ∧
      (field ≠ "allowed_engine_versions" → c'.versions = c.versions) := by
  unfold readField at h
  split at h
  · obtain ⟨_, _, h⟩ := bind_eq_ok_iff.mp h
    obtain rfl := Except.ok.inj h
    exact ⟨fun hne => absurd rfl hne, fun _ => rfl, fun _ => rfl⟩
  · obtain ⟨_, _, h⟩ := bind_eq_ok_iff.mp h
    obtain rfl := Except.ok.inj h
    exact ⟨fun _ => rfl, fun hne => absurd rfl hne, fun _ => rfl⟩
  · obtain ⟨_, _, h⟩ := bind_eq_ok_iff.mp h
    obtain rfl := Except.ok.inj h
    exact ⟨fun _ => rfl, fun _ => rfl, fun hne => absurd rfl hne⟩
  · obtain rfl := Except.ok.inj h
    exact ⟨fun _ => rfl, fun _ => rfl, fun _ => rfl⟩

def basePart : Document.Part form String where
  name := "output_base"
  decode := Document.decodeString .path
  get := base
  set b c := { c with base := b }
  listed := by decide
  get_set _ _ := rfl
  field_eq _ _ := rfl
  others hne h := (readField_frame h).1 hne

def codePart : Document.Part form CodeOptions where
  name := "codegen"
  decode := CodeOptions.ofDocument
  get := code
  set o c := { c with code := o }
  listed := by decide
  get_set _ _ := rfl
  field_eq _ _ := rfl
  others hne h := (readField_frame h).2.1 hne

def versionsPart : Document.Part form (List String) where
  name := "allowed_engine_versions"
  decode := Document.decodeStrings
  get := versions
  set vs c := { c with versions := vs }
  listed := by decide
  get_set _ _ := rfl
  field_eq _ _ := rfl
  others hne h := (readField_frame h).2.2 hne

/-- Every part of a configuration is what its entry says, or has its default without such an
entry. -/
structure Given (entries : List (Document × Document)) (c : Configuration) : Prop where
  base : Said entries "output_base" (Document.decodeString .path) "." c.base
  code : Said entries "codegen" CodeOptions.ofDocument {} c.code
  versions : Said entries "allowed_engine_versions" Document.decodeStrings ["1.0.0"] c.versions

/-- An object is the default configuration with the fields that it gives. -/
theorem decodeRecord_object :
    Document.decodeRecord .text form {} (.object entries closed) = .ok c ↔
      closed = true ∧ Admits form [] entries ∧ Given entries c := by
  refine Document.decodeEntries_iff_of_said rfl (fun c hadmits hfill => ?_)
    (fun c hadmits h name value hmem => ?_) fun c c' hadmits h h' => ?_
  · exact ⟨basePart.said hadmits hfill, codePart.said hadmits hfill,
      versionsPart.said hadmits hfill⟩
  · have hlisted := (Document.mem_givenFields.mp hmem).2
    simp only [form, List.mem_cons, List.not_mem_nil, or_false] at hlisted
    rcases hlisted with rfl | rfl | rfl
    · exact basePart.isRead hadmits h.base hmem
    · exact codePart.isRead hadmits h.code hmem
    · exact versionsPart.isRead hadmits h.versions hmem
  · cases c
    cases c'
    rw [Configuration.mk.injEq]
    exact ⟨basePart.said_unique hadmits h.base h'.base,
      codePart.said_unique hadmits h.code h'.code,
      versionsPart.said_unique hadmits h.versions h'.versions⟩

/-- The entries of a configuration are put in another way that says the same, and perhaps those of
its options. -/
def Restated : List (Document × Document) → List (Document × Document) → Prop :=
  Document.Restated form {} fun name value value' => name = "codegen" ∧
    ∃ options options' closed, value = .object options closed ∧ value' = .object options' closed ∧
      CodeOptions.Restated options options'

theorem Restated.decodeRecord (h : Restated entries entries') :
    Document.decodeRecord .text form {} (.object entries closed) = .ok c ↔
      Document.decodeRecord .text form {} (.object entries' closed) = .ok c := by
  rw [decodeRecord_object, decodeRecord_object, h.admits rfl]
  refine and_congr_right fun _ => and_congr_right fun _ => ?_
  have hbase := h.said basePart (v := c.base) fun _ _ hsame => absurd hsame.1 (by decide)
  have hversions := h.said versionsPart (v := c.versions) fun _ _ hsame =>
    absurd hsame.1 (by decide)
  have hcode := h.said codePart (v := c.code) fun value value' hsame o => by
    obtain ⟨_, options, options', closed, rfl, rfl, hoptions⟩ := hsame
    exact hoptions.ofDocument
  exact ⟨fun h => ⟨hbase.mp h.base, hcode.mp h.code, hversions.mp h.versions⟩,
    fun h => ⟨hbase.mpr h.base, hcode.mpr h.code, hversions.mpr h.versions⟩⟩

/-! ## Texts -/

theorem whole_toDocument (c : Configuration) : c.toDocument.Whole := by
  refine .record fun entry hentry => ?_
  simp only [List.mem_cons, List.not_mem_nil, or_false] at hentry
  rcases hentry with rfl | rfl | rfl
  · exact .text _
  · exact c.code.whole_toDocument
  · exact Declaration.whole_textList c.versions

theorem decodeRecord_toDocument (c : Configuration) :
    Document.decodeRecord .text form {} c.toDocument = .ok c := by
  obtain ⟨base, code, versions⟩ := c
  have hversions := Declaration.decodeStrings_textList versions
  rw [Declaration.textList] at hversions
  simp [toDocument, Document.record, Document.text, Document.decodeRecord, Document.decodeEntries,
    Document.readFields, form, readField, Document.decodeString,
    CodeOptions.ofDocument_toDocument, hversions, bind, Except.bind, pure, Except.pure]

/-- A text spells the configuration of its document, if nothing follows the document. -/
theorem ofText_eq_ok_iff {document : Document} (hread : Document.read text = (document, alone)) :
    ofText text = .ok c ↔
      alone = true ∧ Document.decodeRecord .text form {} document = .ok c := by
  rw [ofText, Document.decodeText, hread]
  dsimp only
  rw [bind_eq_ok_iff]
  cases alone with
  | false =>
      constructor
      · rintro ⟨_, _, h⟩
        cases h
      · exact fun h => Bool.noConfusion h.1
  | true =>
      constructor
      · rintro ⟨c', hc', h⟩
        obtain rfl := Except.ok.inj h
        exact ⟨rfl, hc'⟩
      · exact fun h => ⟨c, h.2, rfl⟩

/-- **A configuration comes back from its text, and an object is the default configuration with the
fields that it gives.** The text of an object is accepted if it is complete and nothing follows it,
its keys are strings, no field is given twice, and every field that is given can be read; then each
part is what its entry says, or has its default. The object of the options is read in the same way.
Two texts of objects that put the same in different ways spell the same configuration, or none. -/
theorem ofText_fields :
    (∀ c : Configuration, ofText c.toDocument.compact = .ok c) ∧
    (∀ {text : String} {entries : List (Document × Document)} {closed alone : Bool},
      Document.read text = (.object entries closed, alone) → ∀ c, ofText text = .ok c ↔
        alone = true ∧ closed = true ∧ Admits form [] entries ∧ Given entries c) ∧
    (∀ {entries : List (Document × Document)} {closed : Bool} (o : CodeOptions),
      CodeOptions.ofDocument (.object entries closed) = .ok o ↔
        closed = true ∧ Admits CodeOptions.form [] entries ∧ CodeOptions.Given entries o) ∧
    ∀ {text text' : String} {entries entries' : List (Document × Document)},
      Document.read text = (.object entries true, true) →
      Document.read text' = (.object entries' true, true) → Restated entries entries' →
      ∀ c, ofText text = .ok c ↔ ofText text' = .ok c := by
  refine ⟨fun c => ?_, fun hread c => ?_, fun o => CodeOptions.ofDocument_object,
    fun hread hread' hrestated c => ?_⟩
  · exact (ofText_eq_ok_iff c.whole_toDocument.read_compact).mpr ⟨rfl, c.decodeRecord_toDocument⟩
  · rw [ofText_eq_ok_iff hread, decodeRecord_object]
  · rw [ofText_eq_ok_iff hread, ofText_eq_ok_iff hread', hrestated.decodeRecord]

/-- One option and an entry that is no field: the other options have their defaults, and so have the
other fields. -/
theorem ofText_fields_header :
    ofText (Document.record [("future", .null),
      ("codegen", Document.record [("with_header", .bool true)])]).compact =
        .ok { code := { header := true } } := by
  have hwhole : (Document.record [("future", .null),
      ("codegen", Document.record [("with_header", .bool true)])]).Whole := by
    refine .record fun entry hentry => ?_
    simp only [List.mem_cons, List.not_mem_nil, or_false] at hentry
    rcases hentry with rfl | rfl
    · exact .null
    · exact .record fun entry hentry => List.mem_singleton.mp hentry ▸ .bool true
  have hoptions : CodeOptions.ofDocument (Document.record [("with_header", .bool true)]) =
      .ok { header := true } := by
    refine (ofText_fields.2.2.1 _).mpr ⟨rfl, ⟨?_, List.nodup_singleton _, ?_⟩, ?_, ?_, ?_, ?_⟩
    · exact List.forall_mem_singleton.mpr ⟨_, rfl, Or.inr rfl⟩
    · exact fun _ _ => List.not_mem_nil
    · exact Or.inr ⟨fun _ h => by simp [Document.text] at h, rfl⟩
    · exact Or.inr ⟨fun _ h => by simp [Document.text] at h, rfl⟩
    · exact Or.inr ⟨fun _ h => by simp [Document.text] at h, rfl⟩
    · exact Or.inl ⟨_, List.mem_cons_self, rfl⟩
  refine (ofText_fields.2.1 hwhole.read_compact _).mpr
    ⟨rfl, rfl, ⟨?_, List.nodup_singleton _, ?_⟩, ?_, ?_, ?_⟩
  · exact List.forall_mem_cons.mpr ⟨⟨_, rfl, Or.inr rfl⟩,
      List.forall_mem_singleton.mpr ⟨_, rfl, Or.inr rfl⟩⟩
  · exact fun _ _ => List.not_mem_nil
  · exact Or.inr ⟨fun _ h => by simp [Document.text] at h, rfl⟩
  · exact Or.inl ⟨_, List.mem_cons_of_mem _ List.mem_cons_self, hoptions⟩
  · exact Or.inr ⟨fun _ h => by simp [Document.text] at h, rfl⟩

end Configuration

end ExplicitOde
