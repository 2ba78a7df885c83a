import ExplicitOde.Document.Reader

/-!
# What is read from the front of a text

A text that begins as a document is written is read as this document. There is one rule for every
way to write one, so that a derivation by the rules follows the text.
-/

namespace ExplicitOde

namespace Document

/-- A document is read from the front of a text, and the rest of the text is left. -/
structure Reads (d : Document) (cs rest : List Char) : Prop where
  value : (readValue cs).value = d
  rest : (readValue cs).rest = rest

/-- The items of a list are read from the front of a text, up to the end of the list. -/
structure ReadsItems (ds : List Document) (cs rest : List Char) : Prop where
  value : (readItems cs).value = (ds, true)
  rest : (readItems cs).rest = rest

/-- The entries of an object are read from the front of a text, up to the end of the object. -/
structure ReadsEntries (entries : List (Document × Document)) (cs rest : List Char) : Prop where
  value : (readEntries cs).value = (entries, true)
  rest : (readEntries cs).rest = rest

/-- The character stands for itself in a string. -/
def isPlain (c : Char) : Bool := c != '"' && c != '\\' && 0x20 ≤ c.toNat

theorem readString_plainChar {valid : Bool} {read tail : List Char} {c : Char}
    (hplain : isPlain c = true) :
    readString valid read (c :: tail) = readString valid (c :: read) tail := by
  simp only [isPlain, Bool.and_eq_true, bne_iff_ne, decide_eq_true_eq] at hplain
  obtain ⟨⟨hquote, hescape⟩, hprintable⟩ := hplain
  rw [readString, if_neg (Nat.not_lt.mpr hprintable)]
  · exact hquote
  · exact fun _ _ _ _ _ _ _ _ _ hc _ => hescape hc
  · exact fun _ _ _ _ _ hc _ => hescape hc
  · exact fun _ _ hc _ => hescape hc

theorem readString_plain (valid : Bool) (rest : List Char) : ∀ {cs : List Char} (read : List Char),
    (∀ c ∈ cs, isPlain c = true) → readString valid read (cs ++ '"' :: rest) =
      some (if valid then some (String.ofList (read.reverse ++ cs)) else none, rest) := by
  intro cs
  induction cs with
  | nil =>
      intro read _
      rw [List.nil_append, readString, List.append_nil]
  | cons c cs ih =>
      intro read hplain
      obtain ⟨hc, hcs⟩ := List.forall_mem_cons.mp hplain
      rw [List.cons_append, readString_plainChar hc, ih (c :: read) hcs, List.reverse_cons,
        List.append_assoc]
      rfl

variable {cs rest : List Char}

/-- A text that begins with no blank has none to skip. -/
theorem skipBlanks_cons {c : Char} (h : isJsonBlank c = false) :
    skipBlanks (c :: cs) = c :: cs := by
  rw [skipBlanks, List.dropWhile_cons, if_neg (by simp [h])]

/-- A document that holds no other is read at once. -/
theorem Reads.leaf {c : Char} {leaf : List Char} (h : skipBlanks cs = c :: leaf) (hlist : c ≠ '[')
    (hobject : c ≠ '\x7b') : Reads (readLeaf (c :: leaf)).1 cs (readLeaf (c :: leaf)).2 := by
  have hread : (readValue cs).value = (readLeaf (c :: leaf)).1 ∧
      (readValue cs).rest = (readLeaf (c :: leaf)).2 := by
    rw [readValue]
    split
    · rename_i heq
      rw [h] at heq
      injection heq with hc
      exact absurd hc hlist
    · rename_i heq
      rw [h] at heq
      injection heq with hc
      exact absurd hc hobject
    · dsimp only
      rw [h]
      exact ⟨rfl, rfl⟩
  exact ⟨hread.1, hread.2⟩

theorem Reads.null (h : skipBlanks cs = 'n' :: 'u' :: 'l' :: 'l' :: rest) : Reads null cs rest :=
  .leaf h (by decide) (by decide)

/-- A text is one document if nothing but blanks is left of it. -/
theorem Reads.read {s : String} {d : Document} (h : Reads d s.toList rest)
    (hrest : skipBlanks rest = []) : read s = (d, true) := by
  rw [Document.read, h.value, h.rest, hrest]
  rfl

/-- A string between quotes. -/
theorem Reads.quoted {content : List Char} {s : String} (h : skipBlanks cs = '"' :: content)
    (hcontent : readString true [] content = some (some s, rest)) : Reads (text s) cs rest := by
  have hleaf := Reads.leaf h (by decide) (by decide)
  have hread : readLeaf ('"' :: content) = (text s, rest) := by
    rw [readLeaf, hcontent]
    rfl
  rwa [hread] at hleaf

/-- A string of characters that stand for themselves. -/
theorem Reads.string {s : String} (h : skipBlanks cs = '"' :: (s.toList ++ '"' :: rest))
    (hplain : s.toList.all isPlain = true) : Reads (text s) cs rest := by
  refine .quoted h ?_
  rw [readString_plain true rest [] (List.all_eq_true.mp hplain)]
  simp

/-- A list without items. -/
theorem Reads.emptyList (h : skipBlanks cs = '[' :: ']' :: rest) :
    Reads (Document.list []) cs rest := by
  have hread : (readValue cs).value = Document.list [] ∧ (readValue cs).rest = rest := by
    rw [readValue]
    split
    · rename_i heq
      rw [h] at heq
      injection heq with _ heq
      subst heq
      split
      · rename_i heq
        rw [skipBlanks_cons (by decide)] at heq
        injection heq with _ heq
        exact ⟨rfl, heq.symm⟩
      · rename_i hne
        exact absurd (skipBlanks_cons (by decide)) (hne _)
    · simp_all
    · simp_all
  exact ⟨hread.1, hread.2⟩

/-- A list, which is not empty. -/
theorem Reads.list {items : List Char} {ds : List Document} (h : skipBlanks cs = '[' :: items)
    (hne : ∀ after, skipBlanks items ≠ ']' :: after) (hitems : ReadsItems ds items rest) :
    Reads (Document.list ds) cs rest := by
  have hread : (readValue cs).value = Document.list ds ∧ (readValue cs).rest = rest := by
    rw [readValue]
    split
    · rename_i heq
      rw [h] at heq
      injection heq with _ heq
      subst heq
      split
      · rename_i heq
        exact absurd heq (hne _)
      · dsimp only
        rw [hitems.value, hitems.rest]
        exact ⟨rfl, rfl⟩
    · simp_all
    · simp_all
  exact ⟨hread.1, hread.2⟩

/-- An object without entries. -/
theorem Reads.emptyObject (h : skipBlanks cs = '\x7b' :: '\x7d' :: rest) :
    Reads (Document.record []) cs rest := by
  have hread : (readValue cs).value = Document.record [] ∧ (readValue cs).rest = rest := by
    rw [readValue]
    split
    · simp_all
    · rename_i heq
      rw [h] at heq
      injection heq with _ heq
      subst heq
      split
      · rename_i heq
        rw [skipBlanks_cons (by decide)] at heq
        injection heq with _ heq
        exact ⟨rfl, heq.symm⟩
      · rename_i hne
        exact absurd (skipBlanks_cons (by decide)) (hne _)
    · simp_all
  exact ⟨hread.1, hread.2⟩

/-- An object, which is not empty. -/
theorem Reads.object {content : List Char} {entries : List (Document × Document)}
    (h : skipBlanks cs = '\x7b' :: content) (hne : ∀ after, skipBlanks content ≠ '\x7d' :: after)
    (hentries : ReadsEntries entries content rest) : Reads (.object entries true) cs rest := by
  have hread : (readValue cs).value = .object entries true ∧ (readValue cs).rest = rest := by
    rw [readValue]
    split
    · simp_all
    · rename_i heq
      rw [h] at heq
      injection heq with _ heq
      subst heq
      split
      · rename_i heq
        exact absurd heq (hne _)
      · dsimp only
        rw [hentries.value, hentries.rest]
        exact ⟨rfl, rfl⟩
    · simp_all
  exact ⟨hread.1, hread.2⟩

/-- An object that begins with a key between quotes. -/
theorem Reads.keyed {content tail : List Char} {entries : List (Document × Document)}
    (h : skipBlanks cs = '\x7b' :: content) (hkey : skipBlanks content = '"' :: tail)
    (hentries : ReadsEntries entries content rest) : Reads (.object entries true) cs rest := by
  refine .object h (fun after hafter => ?_) hentries
  rw [hkey] at hafter
  exact absurd (List.cons.inj hafter).1 (by decide)

/-- The last item of a list. -/
theorem ReadsItems.last {after : List Char} {d : Document} (hd : Reads d cs after)
    (h : skipBlanks after = ']' :: rest) : ReadsItems [d] cs rest := by
  have hread : (readItems cs).value = ([d], true) ∧ (readItems cs).rest = rest := by
    rw [readItems]
    dsimp only
    rw [← hd.rest] at h
    split
    · simp_all
    · simp_all [hd.value]
    · simp_all
  exact ⟨hread.1, hread.2⟩

/-- A list of one string. -/
theorem Reads.singleton {s : String}
    (h : skipBlanks cs = '[' :: '"' :: (s.toList ++ '"' :: ']' :: rest))
    (hplain : s.toList.all isPlain = true) : Reads (Document.list [text s]) cs rest := by
  refine .list h (fun after hafter => ?_) (.last (.string rfl hplain) rfl)
  injection hafter with hquote
  exact absurd hquote (by decide)

/-- An item with others after it. -/
theorem ReadsItems.more {after items : List Char} {d : Document} {ds : List Document}
    (hd : Reads d cs after) (h : skipBlanks after = ',' :: items)
    (hitems : ReadsItems ds items rest) : ReadsItems (d :: ds) cs rest := by
  have hread : (readItems cs).value = (d :: ds, true) ∧ (readItems cs).rest = rest := by
    rw [readItems]
    dsimp only
    rw [← hd.rest] at h
    split
    · rename_i heq
      rw [h] at heq
      injection heq with _ heq
      subst heq
      dsimp only
      rw [hd.value, hitems.value, hitems.rest]
      exact ⟨rfl, rfl⟩
    · simp_all
    · simp_all
  exact ⟨hread.1, hread.2⟩

/-- The last entry of an object. -/
theorem ReadsEntries.last {afterKey content after : List Char} {key : String} {d : Document}
    (hkey : Reads (text key) cs afterKey) (hcolon : skipBlanks afterKey = ':' :: content)
    (hd : Reads d content after) (h : skipBlanks after = '\x7d' :: rest) :
    ReadsEntries [(text key, d)] cs rest := by
  have hread : (readEntries cs).value = ([(text key, d)], true) ∧ (readEntries cs).rest = rest := by
    have hstring : (readValue cs).value.isString = true := by rw [hkey.value]; rfl
    rw [readEntries]
    dsimp only
    rw [← hkey.rest] at hcolon
    split
    · rename_i heq _
      rw [hcolon] at heq
      injection heq with _ heq
      subst heq
      rw [← hd.rest] at h
      split
      · simp_all
      · simp_all [hkey.value, hd.value]
      · simp_all
    · simp_all
  exact ⟨hread.1, hread.2⟩

/-- An entry with others after it. -/
theorem ReadsEntries.more {afterKey content after more : List Char} {key : String} {d : Document}
    {entries : List (Document × Document)} (hkey : Reads (text key) cs afterKey)
    (hcolon : skipBlanks afterKey = ':' :: content) (hd : Reads d content after)
    (h : skipBlanks after = ',' :: more) (hentries : ReadsEntries entries more rest) :
    ReadsEntries ((text key, d) :: entries) cs rest := by
  have hread : (readEntries cs).value = ((text key, d) :: entries, true) ∧
      (readEntries cs).rest = rest := by
    have hstring : (readValue cs).value.isString = true := by rw [hkey.value]; rfl
    rw [readEntries]
    dsimp only
    rw [← hkey.rest] at hcolon
    split
    · rename_i heq _
      rw [hcolon] at heq
      injection heq with _ heq
      subst heq
      rw [← hd.rest] at h
      split
      · rename_i heq
        rw [h] at heq
        injection heq with _ heq
        subst heq
        dsimp only
        rw [hkey.value, hd.value, hentries.value, hentries.rest]
        exact ⟨rfl, rfl⟩
      · simp_all
      · simp_all
    · simp_all
  exact ⟨hread.1, hread.2⟩

end Document

end ExplicitOde
