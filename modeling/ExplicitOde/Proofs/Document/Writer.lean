import ExplicitOde.Document.Writer
import ExplicitOde.Proofs.Document.Reader

/-!
# What is written is read back

A whole document is one that a text can spell without loss: all strings are there and all lists and
objects are closed. Numbers are left out, since they have several spellings.

**Strings come back character by character.** A character is written as it is, as an escape of one
letter, or as an escape of four digits, and each of the three is read as the character.

**A whole document is read from its text, however deep it is indented and whatever follows it**, so
a text on several lines spells one document and nothing else. The same holds of its text on one
line.
-/

namespace ExplicitOde

namespace Document

/-! ## Strings -/

/-- The three ways in which a character is written inside a string. -/
theorem stringChar_cases (c : Char) :
    (∃ letter, stringChar c = ['\\', letter] ∧ letter ≠ 'u' ∧ escapedChar? letter = some c) ∨
      (∃ a b, stringChar c = ['\\', 'u', '0', '0', a, b] ∧
        escapedUnit? '0' '0' a b = some c.toNat ∧ c.toNat < 0x20) ∨
      (stringChar c = [c] ∧ isPlain c = true) := by
  have hletters : ∀ n ∈ [0x08, 0x09, 0x0a, 0x0c, 0x0d], ∃ letter,
      stringChar (Char.ofNat n) = ['\\', letter] ∧ letter ≠ 'u' ∧
        escapedChar? letter = some (Char.ofNat n) := by
    simp only [List.forall_mem_cons]
    exact ⟨⟨'b', by decide⟩, ⟨'t', by decide⟩, ⟨'n', by decide⟩, ⟨'f', by decide⟩,
      ⟨'r', by decide⟩, fun n hn => absurd hn List.not_mem_nil⟩
  have hdigits : ∀ n < 0x20, n ∉ [0x08, 0x09, 0x0a, 0x0c, 0x0d] →
      stringChar (Char.ofNat n) = ['\\', 'u', '0', '0', (n / 16).digitChar, (n % 16).digitChar] ∧
        escapedUnit? '0' '0' (n / 16).digitChar (n % 16).digitChar = some n := by
    decide
  by_cases hcontrol : c.toNat < 0x20
  · have hc : Char.ofNat c.toNat = c := Char.ofNat_toNat c
    by_cases hmem : c.toNat ∈ [0x08, 0x09, 0x0a, 0x0c, 0x0d]
    · have hletter := hletters c.toNat hmem
      rw [hc] at hletter
      exact Or.inl hletter
    · obtain ⟨htext, hunit⟩ := hdigits c.toNat hcontrol hmem
      rw [hc] at htext
      exact Or.inr (Or.inl ⟨_, _, htext, hunit, hcontrol⟩)
  · by_cases hquote : c = '"'
    · exact Or.inl ⟨'"', by rw [hquote]; decide⟩
    by_cases hslash : c = '\\'
    · exact Or.inl ⟨'\\', by rw [hslash]; decide⟩
    refine Or.inr (Or.inr ⟨?_, by simp [isPlain, hquote, hslash]; omega⟩)
    rw [stringChar.eq_def]
    -- the other characters with a letter are controls
    split <;> simp_all

/-- An escape of four digits that the text goes on with stands for a unit. -/
def GoesOn (tail : List Char) : Prop :=
  ∀ e f g h rest, tail = '\\' :: 'u' :: e :: f :: g :: h :: rest →
    ∃ unit, escapedUnit? e f g h = some unit

/-- What is written inside a string is such a text. -/
theorem goesOn_written (cs rest : List Char) : GoesOn (cs.flatMap stringChar ++ '"' :: rest) := by
  intro e f g h after heq
  cases cs with
  | nil =>
      injection heq with hquote
      exact absurd hquote (by decide)
  | cons c cs =>
      rw [List.flatMap_cons] at heq
      obtain ⟨letter, htext, hletter, _⟩ | ⟨a, b, htext, hunit, _⟩ | ⟨htext, hplain⟩ :=
        stringChar_cases c
      · rw [htext] at heq
        exact absurd (List.cons.inj (List.cons.inj heq).2).1 hletter
      · rw [htext] at heq
        simp only [List.cons_append, List.nil_append, List.cons.injEq, true_and] at heq
        obtain ⟨rfl, rfl, rfl, rfl, _⟩ := heq
        exact ⟨_, hunit⟩
      · rw [htext] at heq
        obtain rfl := (List.cons.inj heq).1
        exact absurd hplain (by decide)

variable {valid : Bool} {read tail : List Char}

theorem readString_letter {letter c : Char} (hletter : letter ≠ 'u')
    (hchar : escapedChar? letter = some c) :
    readString valid read ('\\' :: letter :: tail) = readString valid (c :: read) tail := by
  rw [readString, hchar]
  · exact fun _ _ _ _ _ _ _ _ _ hu _ => hletter hu
  · exact fun _ _ _ _ _ hu _ => hletter hu

/-- An escape for a character by itself is read as this character. A second escape after it is
looked at, but not taken for the other half of a pair. -/
theorem readString_unit {a b c d : Char} {unit : Nat} (hunit : escapedUnit? a b c d = some unit)
    (hleading : isLeadingUnit unit = false) (htrailing : isTrailingUnit unit = false)
    (htail : GoesOn tail) :
    readString valid read ('\\' :: 'u' :: a :: b :: c :: d :: tail) =
      readString valid (Char.ofNat unit :: read) tail := by
  by_cases hpair : ∃ e f g h rest, tail = '\\' :: 'u' :: e :: f :: g :: h :: rest
  · obtain ⟨e, f, g, h, rest, rfl⟩ := hpair
    obtain ⟨next, hnext⟩ := htail e f g h rest rfl
    rw [readString, hunit, hnext]
    simp [hleading, htrailing]
  · rw [readString, hunit]
    · simp [hleading, htrailing]
    · exact fun e f g h rest heq => hpair ⟨e, f, g, h, rest, heq⟩

/-- A written character is read as itself. -/
theorem readString_stringChar (c : Char) (htail : GoesOn tail) :
    readString valid read (stringChar c ++ tail) = readString valid (c :: read) tail := by
  obtain ⟨letter, htext, hletter, hchar⟩ | ⟨a, b, htext, hunit, hcontrol⟩ | ⟨htext, hplain⟩ :=
    stringChar_cases c
  · rw [htext]
    exact readString_letter hletter hchar
  · have hleading : isLeadingUnit c.toNat = false := by simp [isLeadingUnit]; omega
    have htrailing : isTrailingUnit c.toNat = false := by simp [isTrailingUnit]; omega
    rw [htext]
    refine (readString_unit hunit hleading htrailing htail).trans ?_
    rw [Char.ofNat_toNat]
  · rw [htext]
    exact readString_plainChar hplain

/-- **A written string is read as itself.** -/
theorem readString_written (cs rest : List Char) : ∀ read : List Char,
    readString true read (cs.flatMap stringChar ++ '"' :: rest) =
      some (some (String.ofList (read.reverse ++ cs)), rest) := by
  induction cs with
  | nil =>
      intro read
      rw [List.flatMap_nil, List.nil_append, readString, List.append_nil]
      rfl
  | cons c cs ih =>
      intro read
      rw [List.flatMap_cons, List.append_assoc, readString_stringChar c (goesOn_written cs rest),
        ih (c :: read), List.reverse_cons, List.append_assoc]
      rfl

/-! ## Whole documents -/

/-- Nothing is missing in the document, and there are no numbers in it. -/
inductive Whole : Document → Prop where
  | null : Whole null
  | bool (value : Bool) : Whole (bool value)
  | text (s : String) : Whole (text s)
  | list {items : List Document} (h : ∀ item ∈ items, Whole item) : Whole (list items)
  | record {entries : List (String × Document)} (h : ∀ entry ∈ entries, Whole entry.2) :
      Whole (record entries)

variable {cs rest : List Char}

theorem skipBlanks_newLine (depth : Nat) : skipBlanks (newLine depth ++ cs) = skipBlanks cs := by
  have hblank : ∀ c ∈ newLine depth, isJsonBlank c = true := by
    intro c hc
    rcases List.mem_cons.mp hc with rfl | hc
    · rfl
    · rw [List.eq_of_mem_replicate hc]
      rfl
  rw [skipBlanks, skipBlanks, List.dropWhile_append_of_pos hblank]

/-- Any string that is written. -/
theorem Reads.stringText {s : String} (h : skipBlanks cs = stringText s ++ rest) :
    Reads (Document.text s) cs rest := by
  have htext : Document.stringText s ++ rest =
      '"' :: (s.toList.flatMap stringChar ++ '"' :: rest) := by
    simp [Document.stringText]
  refine .quoted (h.trans htext) ?_
  rw [readString_written]
  simp

/-! ## Documents on several lines -/

theorem prettyText_null (depth : Nat) : prettyText depth null = ['n', 'u', 'l', 'l'] := rfl

theorem prettyText_true (depth : Nat) : prettyText depth (bool true) = ['t', 'r', 'u', 'e'] := rfl

theorem prettyText_false (depth : Nat) :
    prettyText depth (bool false) = ['f', 'a', 'l', 's', 'e'] := rfl

theorem prettyText_text (depth : Nat) (s : String) : prettyText depth (text s) = stringText s := rfl

theorem prettyText_emptyList (depth : Nat) : prettyText depth (list []) = ['[', ']'] := rfl

theorem prettyText_emptyRecord (depth : Nat) :
    prettyText depth (record []) = ['\x7b', '\x7d'] := rfl

theorem prettyText_list {items : List Document} (hne : items ≠ []) (depth : Nat) :
    prettyText depth (list items) =
      '[' :: (prettyItems (depth + 1) items ++ (newLine depth ++ [']'])) := by
  obtain ⟨item, items, rfl⟩ := List.exists_cons_of_ne_nil hne
  exact congrArg ('[' :: ·) (List.append_assoc _ _ _)

theorem prettyText_record {entries : List (String × Document)} (hne : entries ≠ []) (depth : Nat) :
    prettyText depth (record entries) =
      '\x7b' :: (prettyEntries (depth + 1) (entries.map fun (key, value) => (text key, value)) ++
        (newLine depth ++ ['\x7d'])) := by
  obtain ⟨entry, entries, rfl⟩ := List.exists_cons_of_ne_nil hne
  exact congrArg ('\x7b' :: ·) (List.append_assoc _ _ _)

theorem prettyItems_singleton (depth : Nat) (item : Document) :
    prettyItems depth [item] = newLine depth ++ prettyText depth item := rfl

theorem prettyItems_cons {items : List Document} (hne : items ≠ []) (depth : Nat)
    (item : Document) : prettyItems depth (item :: items) =
      newLine depth ++ (prettyText depth item ++ ',' :: prettyItems depth items) := by
  obtain ⟨other, items, rfl⟩ := List.exists_cons_of_ne_nil hne
  exact List.append_assoc _ _ _

theorem prettyEntries_singleton (depth : Nat) (key : String) (value : Document) :
    prettyEntries depth [(text key, value)] =
      newLine depth ++ (stringText key ++ ':' :: ' ' :: prettyText depth value) :=
  List.append_assoc _ _ _

theorem prettyEntries_cons {entries : List (Document × Document)} (hne : entries ≠ [])
    (depth : Nat) (key : String) (value : Document) :
    prettyEntries depth ((text key, value) :: entries) =
      newLine depth ++ (stringText key ++ ':' :: ' ' :: (prettyText depth value ++
        ',' :: prettyEntries depth entries)) := by
  obtain ⟨other, entries, rfl⟩ := List.exists_cons_of_ne_nil hne
  rw [← List.cons_append, ← List.cons_append, ← List.append_assoc, ← List.append_assoc]
  rfl

/-- The text of a whole document begins with a character that no blank and no end of a list is. -/
theorem Whole.prettyText_head {d : Document} (h : Whole d) (depth : Nat) :
    ∃ c tail, prettyText depth d = c :: tail ∧ isJsonBlank c = false ∧ c ≠ ']' := by
  cases h with
  | null => exact ⟨'n', _, prettyText_null depth, by decide⟩
  | bool value =>
      cases value with
      | false => exact ⟨'f', _, prettyText_false depth, by decide⟩
      | true => exact ⟨'t', _, prettyText_true depth, by decide⟩
  | text s => exact ⟨'"', _, prettyText_text depth s, by decide⟩
  | @list items _ =>
      by_cases hne : items = []
      · exact ⟨'[', _, by rw [hne, prettyText_emptyList], by decide⟩
      · exact ⟨'[', _, prettyText_list hne depth, by decide⟩
  | @record entries _ =>
      by_cases hne : entries = []
      · exact ⟨'\x7b', _, by rw [hne, prettyText_emptyRecord], by decide⟩
      · exact ⟨'\x7b', _, prettyText_record hne depth, by decide⟩

/-- The document is read from its text at every depth, whatever follows. -/
def ReadBack (d : Document) : Prop :=
  ∀ depth cs rest, skipBlanks cs = prettyText depth d ++ rest → Reads d cs rest

/-- A whole document is next on a new line. -/
theorem Whole.skipBlanks_line {d : Document} (h : Whole d) (depth : Nat) :
    skipBlanks (newLine depth ++ (prettyText depth d ++ rest)) = prettyText depth d ++ rest := by
  obtain ⟨c, tail, htext, hblank, _⟩ := h.prettyText_head depth
  rw [skipBlanks_newLine, htext]
  exact skipBlanks_cons hblank

theorem readsItems_pretty (depth close : Nat) : ∀ {items : List Document}, items ≠ [] →
    (∀ item ∈ items, Whole item ∧ ReadBack item) →
    ReadsItems items (prettyItems depth items ++ (newLine close ++ ']' :: rest)) rest := by
  intro items
  induction items with
  | nil => exact fun hne _ => absurd rfl hne
  | cons item items ih =>
      intro _ hitems
      obtain ⟨⟨hwhole, hread⟩, hothers⟩ := List.forall_mem_cons.mp hitems
      cases items with
      | nil =>
          rw [prettyItems_singleton, List.append_assoc]
          refine .last (hread depth _ _ (hwhole.skipBlanks_line depth)) ?_
          rw [skipBlanks_newLine]
          exact skipBlanks_cons (by decide)
      | cons other items =>
          rw [prettyItems_cons (List.cons_ne_nil _ _), List.append_assoc, List.append_assoc]
          exact .more (hread depth _ _ (hwhole.skipBlanks_line depth))
            (skipBlanks_cons (by decide)) (ih (List.cons_ne_nil _ _) hothers)

theorem readsEntries_pretty (depth close : Nat) : ∀ {entries : List (String × Document)},
    entries ≠ [] → (∀ entry ∈ entries, Whole entry.2 ∧ ReadBack entry.2) →
    ReadsEntries (entries.map fun (key, value) => (text key, value))
      (prettyEntries depth (entries.map fun (key, value) => (text key, value)) ++
        (newLine close ++ '\x7d' :: rest)) rest := by
  intro entries
  induction entries with
  | nil => exact fun hne _ => absurd rfl hne
  | cons entry entries ih =>
      intro _ hentries
      obtain ⟨key, value⟩ := entry
      obtain ⟨⟨hwhole, hread⟩, hothers⟩ := List.forall_mem_cons.mp hentries
      have hkey : ∀ after : List Char,
          Reads (text key) (newLine depth ++ (stringText key ++ after)) after := by
        intro after
        refine .stringText ?_
        rw [skipBlanks_newLine]
        exact skipBlanks_cons (by decide)
      have hvalue : ∀ after : List Char,
          Reads value (' ' :: (prettyText depth value ++ after)) after := by
        intro after
        refine hread depth _ _ ?_
        obtain ⟨c, tail, htext, hblank, _⟩ := hwhole.prettyText_head depth
        rw [htext]
        exact skipBlanks_cons hblank
      -- the last entry has no comma behind it
      cases entries with
      | nil =>
          rw [List.map_cons, List.map_nil, prettyEntries_singleton]
          simp only [List.append_assoc, List.cons_append]
          refine .last (hkey _) (skipBlanks_cons (by decide)) (hvalue _) ?_
          rw [skipBlanks_newLine]
          exact skipBlanks_cons (by decide)
      | cons other entries =>
          have hmore : ((other :: entries).map fun (key, value) => (text key, value)) ≠ [] :=
            List.cons_ne_nil _ _
          rw [List.map_cons, prettyEntries_cons hmore]
          simp only [List.append_assoc, List.cons_append]
          exact .more (hkey _) (skipBlanks_cons (by decide)) (hvalue _)
            (skipBlanks_cons (by decide)) (ih (List.cons_ne_nil _ _) hothers)

/-- The items of a list do not begin as its end does. -/
theorem skipBlanks_prettyItems {items : List Document} (hne : items ≠ [])
    (h : ∀ item ∈ items, Whole item) (depth : Nat) :
    ∃ c tail, skipBlanks (prettyItems depth items ++ cs) = c :: tail ∧ c ≠ ']' := by
  obtain ⟨item, items, rfl⟩ := List.exists_cons_of_ne_nil hne
  have hfront : ∃ more, prettyItems depth (item :: items) =
      newLine depth ++ (prettyText depth item ++ more) := by
    cases items with
    | nil => exact ⟨[], by rw [prettyItems_singleton, List.append_nil]⟩
    | cons other items => exact ⟨_, prettyItems_cons (List.cons_ne_nil _ _) depth item⟩
  obtain ⟨more, hfront⟩ := hfront
  obtain ⟨c, tail, htext, hblank, hend⟩ := (h item List.mem_cons_self).prettyText_head depth
  refine ⟨c, tail ++ (more ++ cs), ?_, hend⟩
  rw [hfront, List.append_assoc, skipBlanks_newLine, htext, List.append_assoc]
  exact skipBlanks_cons hblank

/-- The entries of an object begin as a string does. -/
theorem skipBlanks_prettyEntries {entries : List (String × Document)} (hne : entries ≠ [])
    (depth : Nat) : ∃ tail, skipBlanks
      (prettyEntries depth (entries.map fun (key, value) => (text key, value)) ++ cs) =
        '"' :: tail := by
  obtain ⟨⟨key, value⟩, entries, rfl⟩ := List.exists_cons_of_ne_nil hne
  have hfront : ∃ more, prettyEntries depth
      (((key, value) :: entries).map fun (key, value) => (text key, value)) =
        newLine depth ++ '"' :: more := by
    cases entries with
    | nil => exact ⟨_, prettyEntries_singleton depth key value⟩
    | cons other entries => exact ⟨_, prettyEntries_cons (List.cons_ne_nil _ _) depth key value⟩
  obtain ⟨more, hfront⟩ := hfront
  refine ⟨more ++ cs, ?_⟩
  rw [hfront, List.append_assoc, skipBlanks_newLine]
  exact skipBlanks_cons (by decide)

/-- **A whole document is read from its text, at every depth and whatever follows it.** -/
theorem Whole.readBack {d : Document} (h : Whole d) : ReadBack d := by
  induction h with
  | null =>
      intro depth cs rest hcs
      rw [prettyText_null] at hcs
      exact .null hcs
  | bool value =>
      intro depth cs rest hcs
      cases value with
      | false =>
          rw [prettyText_false] at hcs
          exact .leaf hcs (by decide) (by decide)
      | true =>
          rw [prettyText_true] at hcs
          exact .leaf hcs (by decide) (by decide)
  | text s =>
      intro depth cs rest hcs
      rw [prettyText_text] at hcs
      exact .stringText hcs
  | @list items hwhole ih =>
      intro depth cs rest hcs
      -- an empty list has no line breaks
      by_cases hne : items = []
      · subst hne
        rw [prettyText_emptyList] at hcs
        exact .emptyList hcs
      · rw [prettyText_list hne, List.cons_append, List.append_assoc, List.append_assoc] at hcs
        refine .list hcs (fun after hafter => ?_)
          (readsItems_pretty _ _ hne fun item hitem => ⟨hwhole item hitem, ih item hitem⟩)
        obtain ⟨c, tail, htext, hend⟩ := skipBlanks_prettyItems hne hwhole (depth + 1)
        rw [htext] at hafter
        exact hend (List.cons.inj hafter).1
  | @record entries hwhole ih =>
      intro depth cs rest hcs
      by_cases hne : entries = []
      · subst hne
        rw [prettyText_emptyRecord] at hcs
        exact .emptyObject hcs
      · rw [prettyText_record hne, List.cons_append, List.append_assoc, List.append_assoc] at hcs
        obtain ⟨tail, htext⟩ := skipBlanks_prettyEntries hne (depth + 1)
        exact .keyed hcs htext
          (readsEntries_pretty _ _ hne fun entry hentry => ⟨hwhole entry hentry, ih entry hentry⟩)

/-- A document on several lines is read back, and nothing but it is in the text. -/
theorem Whole.read_pretty {d : Document} (h : Whole d) : Document.read d.pretty = (d, true) := by
  have hread : Reads d d.pretty.toList [] := by
    refine h.readBack 0 _ _ ?_
    obtain ⟨c, tail, htext, hblank, _⟩ := h.prettyText_head 0
    rw [pretty, String.toList_ofList, htext, List.append_nil]
    exact skipBlanks_cons hblank
  exact hread.read rfl

/-! ## Documents on one line -/

theorem compactText_null : compactText null = ['n', 'u', 'l', 'l'] := rfl

theorem compactText_true : compactText (bool true) = ['t', 'r', 'u', 'e'] := rfl

theorem compactText_false : compactText (bool false) = ['f', 'a', 'l', 's', 'e'] := rfl

theorem compactText_text (s : String) : compactText (text s) = stringText s := rfl

theorem compactText_list (items : List Document) :
    compactText (list items) = '[' :: (compactItems items ++ [']']) := rfl

theorem compactText_record (entries : List (String × Document)) :
    compactText (record entries) =
      '\x7b' :: (compactEntries (entries.map fun (key, value) => (text key, value)) ++
        ['\x7d']) := rfl

theorem compactItems_singleton (item : Document) : compactItems [item] = compactText item := rfl

theorem compactItems_cons {items : List Document} (hne : items ≠ []) (item : Document) :
    compactItems (item :: items) = compactText item ++ ',' :: compactItems items := by
  obtain ⟨other, items, rfl⟩ := List.exists_cons_of_ne_nil hne
  rfl

theorem compactEntries_singleton (key : String) (value : Document) :
    compactEntries [(text key, value)] = stringText key ++ ':' :: compactText value := rfl

theorem compactEntries_cons {entries : List (Document × Document)} (hne : entries ≠ [])
    (key : String) (value : Document) : compactEntries ((text key, value) :: entries) =
      stringText key ++ ':' :: (compactText value ++ ',' :: compactEntries entries) := by
  obtain ⟨other, entries, rfl⟩ := List.exists_cons_of_ne_nil hne
  rw [← List.cons_append, ← List.append_assoc]
  rfl

/-- The text of a whole document begins with a character that no blank and no end of a list is. -/
theorem Whole.compactText_head {d : Document} (h : Whole d) :
    ∃ c tail, compactText d = c :: tail ∧ isJsonBlank c = false ∧ c ≠ ']' := by
  cases h with
  | null => exact ⟨'n', _, compactText_null, by decide⟩
  | bool value =>
      cases value with
      | false => exact ⟨'f', _, compactText_false, by decide⟩
      | true => exact ⟨'t', _, compactText_true, by decide⟩
  | text s => exact ⟨'"', _, compactText_text s, by decide⟩
  | @list items _ => exact ⟨'[', _, compactText_list items, by decide⟩
  | @record entries _ => exact ⟨'\x7b', _, compactText_record entries, by decide⟩

/-- Nothing is skipped before a whole document. -/
theorem Whole.skipBlanks_compact {d : Document} (h : Whole d) :
    skipBlanks (compactText d ++ rest) = compactText d ++ rest := by
  obtain ⟨c, tail, htext, hblank, _⟩ := h.compactText_head
  rw [htext]
  exact skipBlanks_cons hblank

/-- The document is read from its text on one line, whatever follows. -/
def ReadFromLine (d : Document) : Prop :=
  ∀ cs rest, skipBlanks cs = compactText d ++ rest → Reads d cs rest

theorem readsItems_compact : ∀ {items : List Document}, items ≠ [] →
    (∀ item ∈ items, Whole item ∧ ReadFromLine item) →
    ReadsItems items (compactItems items ++ ']' :: rest) rest := by
  intro items
  induction items with
  | nil => exact fun hne _ => absurd rfl hne
  | cons item items ih =>
      intro _ hitems
      obtain ⟨⟨hwhole, hread⟩, hothers⟩ := List.forall_mem_cons.mp hitems
      cases items with
      | nil =>
          rw [compactItems_singleton]
          exact .last (hread _ _ hwhole.skipBlanks_compact) (skipBlanks_cons (by decide))
      | cons other items =>
          rw [compactItems_cons (List.cons_ne_nil _ _), List.append_assoc]
          exact .more (hread _ _ hwhole.skipBlanks_compact) (skipBlanks_cons (by decide))
            (ih (List.cons_ne_nil _ _) hothers)

theorem readsEntries_compact : ∀ {entries : List (String × Document)}, entries ≠ [] →
    (∀ entry ∈ entries, Whole entry.2 ∧ ReadFromLine entry.2) →
    ReadsEntries (entries.map fun (key, value) => (text key, value))
      (compactEntries (entries.map fun (key, value) => (text key, value)) ++ '\x7d' :: rest)
      rest := by
  intro entries
  induction entries with
  | nil => exact fun hne _ => absurd rfl hne
  | cons entry entries ih =>
      intro _ hentries
      obtain ⟨key, value⟩ := entry
      obtain ⟨⟨hwhole, hread⟩, hothers⟩ := List.forall_mem_cons.mp hentries
      have hkey : ∀ after : List Char,
          Reads (text key) (stringText key ++ after) after := by
        intro after
        exact .stringText (skipBlanks_cons (by decide))
      -- the last entry has no comma behind it
      cases entries with
      | nil =>
          rw [List.map_cons, List.map_nil, compactEntries_singleton]
          simp only [List.append_assoc, List.cons_append]
          exact .last (hkey _) (skipBlanks_cons (by decide)) (hread _ _ hwhole.skipBlanks_compact)
            (skipBlanks_cons (by decide))
      | cons other entries =>
          have hmore : ((other :: entries).map fun (key, value) => (text key, value)) ≠ [] :=
            List.cons_ne_nil _ _
          rw [List.map_cons, compactEntries_cons hmore]
          simp only [List.append_assoc, List.cons_append]
          exact .more (hkey _) (skipBlanks_cons (by decide))
            (hread _ _ hwhole.skipBlanks_compact) (skipBlanks_cons (by decide))
            (ih (List.cons_ne_nil _ _) hothers)

/-- The items of a list on one line do not begin as its end does. -/
theorem skipBlanks_compactItems {items : List Document} (hne : items ≠ [])
    (h : ∀ item ∈ items, Whole item) :
    ∃ c tail, skipBlanks (compactItems items ++ cs) = c :: tail ∧ c ≠ ']' := by
  obtain ⟨item, items, rfl⟩ := List.exists_cons_of_ne_nil hne
  have hfront : ∃ more, compactItems (item :: items) = compactText item ++ more := by
    cases items with
    | nil => exact ⟨[], by rw [compactItems_singleton, List.append_nil]⟩
    | cons other items => exact ⟨_, compactItems_cons (List.cons_ne_nil _ _) item⟩
  obtain ⟨more, hfront⟩ := hfront
  obtain ⟨c, tail, htext, hblank, hend⟩ := (h item List.mem_cons_self).compactText_head
  refine ⟨c, tail ++ (more ++ cs), ?_, hend⟩
  rw [hfront, htext, List.append_assoc]
  exact skipBlanks_cons hblank

/-- The entries of an object on one line begin as a string does. -/
theorem skipBlanks_compactEntries {entries : List (String × Document)} (hne : entries ≠ []) :
    ∃ tail, skipBlanks
      (compactEntries (entries.map fun (key, value) => (text key, value)) ++ cs) =
        '"' :: tail := by
  obtain ⟨⟨key, value⟩, entries, rfl⟩ := List.exists_cons_of_ne_nil hne
  have hfront : ∃ more, compactEntries
      (((key, value) :: entries).map fun (key, value) => (text key, value)) = '"' :: more := by
    cases entries with
    | nil => exact ⟨_, compactEntries_singleton key value⟩
    | cons other entries => exact ⟨_, compactEntries_cons (List.cons_ne_nil _ _) key value⟩
  obtain ⟨more, hfront⟩ := hfront
  refine ⟨more ++ cs, ?_⟩
  rw [hfront]
  exact skipBlanks_cons (by decide)

/-- **A whole document is read from its text on one line, whatever follows it.** -/
theorem Whole.readFromLine {d : Document} (h : Whole d) : ReadFromLine d := by
  induction h with
  | null =>
      intro cs rest hcs
      rw [compactText_null] at hcs
      exact .null hcs
  | bool value =>
      intro cs rest hcs
      cases value with
      | false =>
          rw [compactText_false] at hcs
          exact .leaf hcs (by decide) (by decide)
      | true =>
          rw [compactText_true] at hcs
          exact .leaf hcs (by decide) (by decide)
  | text s =>
      intro cs rest hcs
      rw [compactText_text] at hcs
      exact .stringText hcs
  | @list items hwhole ih =>
      intro cs rest hcs
      rw [compactText_list, List.cons_append, List.append_assoc] at hcs
      by_cases hne : items = []
      · subst hne
        exact .emptyList hcs
      · refine .list hcs (fun after hafter => ?_)
          (readsItems_compact hne fun item hitem => ⟨hwhole item hitem, ih item hitem⟩)
        obtain ⟨c, tail, htext, hend⟩ := skipBlanks_compactItems hne hwhole
        rw [htext] at hafter
        exact hend (List.cons.inj hafter).1
  | @record entries hwhole ih =>
      intro cs rest hcs
      rw [compactText_record, List.cons_append, List.append_assoc] at hcs
      by_cases hne : entries = []
      · subst hne
        exact .emptyObject hcs
      · obtain ⟨tail, htext⟩ := skipBlanks_compactEntries hne
        exact .keyed hcs htext
          (readsEntries_compact hne fun entry hentry => ⟨hwhole entry hentry, ih entry hentry⟩)

/-- A document on one line is read back, and nothing but it is in the text. -/
theorem Whole.read_compact {d : Document} (h : Whole d) :
    Document.read d.compact = (d, true) := by
  have hread : Reads d d.compact.toList [] := by
    refine h.readFromLine _ _ ?_
    have hskip : skipBlanks (compactText d ++ []) = compactText d ++ [] := h.skipBlanks_compact
    rw [List.append_nil] at hskip
    rw [compact, String.toList_ofList, List.append_nil, hskip]
  exact hread.read rfl

end Document

end ExplicitOde
