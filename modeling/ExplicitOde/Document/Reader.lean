import ExplicitOde.Document.Basic

/-!
# Reading documents

The document of a JSON text, with the text after it. Every function reads from the front of a row
of characters and never fails: where the text cannot be read the document breaks off.
-/

namespace ExplicitOde

namespace Document

/-- The blanks of JSON. -/
def isJsonBlank (c : Char) : Bool :=
  c == ' ' || c == '\n' || c == '\t' || c == '\r'

/-- The text without the blanks at its front. -/
def skipBlanks (cs : List Char) : List Char := cs.dropWhile isJsonBlank

/-! ## Strings -/

/-- The value of a digit to base sixteen, in either case. -/
def hexValue? (c : Char) : Option Nat :=
  if c.isDigit then some (c.toNat - '0'.toNat)
  else if 'a' ≤ c && c ≤ 'f' then some (c.toNat - 'a'.toNat + 10)
  else if 'A' ≤ c && c ≤ 'F' then some (c.toNat - 'A'.toNat + 10)
  else none

/-- The 16-bit unit of an escape of four digits. -/
def escapedUnit? (a b c d : Char) : Option Nat := do
  return ((← hexValue? a) * 16 + (← hexValue? b)) * 256 + (← hexValue? c) * 16 + (← hexValue? d)

/-- The unit begins a pair of units for one character. -/
def isLeadingUnit (unit : Nat) : Bool := 0xD800 ≤ unit && unit ≤ 0xDBFF

/-- The unit ends a pair of units for one character. -/
def isTrailingUnit (unit : Nat) : Bool := 0xDC00 ≤ unit && unit ≤ 0xDFFF

/-- The character of a pair of units. -/
def pairedChar (leading trailing : Nat) : Char :=
  Char.ofNat (0x10000 + (leading - 0xD800) * 0x400 + (trailing - 0xDC00))

/-- The character of an escape of one letter. -/
def escapedChar? (c : Char) : Option Char :=
  match c with
  | '"' => some '"'
  | '\\' => some '\\'
  | '/' => some '/'
  | 'b' => some '\x08'
  | 'f' => some '\x0c'
  | 'n' => some '\n'
  | 'r' => some '\r'
  | 't' => some '\t'
  | _ => none

/-- The rest of a string, whose characters so far are `read` in reverse, and the text after it. A
unit without its pair stands for no character: the string is then absent. -/
def readString (valid : Bool) (read : List Char) : List Char → Option (Option String × List Char)
  | [] => none
  | '"' :: rest => some (if valid then some (String.ofList read.reverse) else none, rest)
  | '\\' :: 'u' :: a :: b :: c :: d :: '\\' :: 'u' :: e :: f :: g :: h :: rest =>
    match escapedUnit? a b c d, escapedUnit? e f g h with
    | some first, some second =>
      if isLeadingUnit first && isTrailingUnit second then
        readString valid (pairedChar first second :: read) rest
      else
        let valid := valid && !isLeadingUnit first && !isTrailingUnit first
        readString valid (Char.ofNat first :: read) ('\\' :: 'u' :: e :: f :: g :: h :: rest)
    | _, _ => none
  | '\\' :: 'u' :: a :: b :: c :: d :: rest =>
    match escapedUnit? a b c d with
    | some unit =>
      let valid := valid && !isLeadingUnit unit && !isTrailingUnit unit
      readString valid (Char.ofNat unit :: read) rest
    | none => none
  | '\\' :: c :: rest =>
    match escapedChar? c with
    | some e => readString valid (e :: read) rest
    | none => none
  | c :: rest => if c.toNat < 0x20 then none else readString valid (c :: read) rest
termination_by cs => cs.length

/-! ## Numerals -/

/-- One or more digits, and the text after them. -/
def readDigits (cs : List Char) : Option (List Char × List Char) :=
  let digits := cs.takeWhile Char.isDigit
  if digits.isEmpty then none else some (digits, cs.dropWhile Char.isDigit)

/-- The digits before the point: a zero that no digit follows, or digits that begin with another. -/
def readWhole (cs : List Char) : Option (List Char × List Char) :=
  match readDigits cs with
  | some ('0' :: _ :: _, _) => none
  | other => other

/-- The point and the digits after it, if there is a point. -/
def readFraction : List Char → Option (Option (List Char) × List Char)
  | '.' :: cs => (readDigits cs).map fun (digits, rest) => (some digits, rest)
  | cs => some (none, cs)

/-- The exponent, if there is one. -/
def readExponent (cs : List Char) : Option (Option (Bool × List Char) × List Char) :=
  match cs with
  | [] => some (none, cs)
  | c :: after =>
    if c == 'e' || c == 'E' then
      match after with
      | '-' :: cs => (readDigits cs).map fun (digits, rest) => (some (true, digits), rest)
      | '+' :: cs => (readDigits cs).map fun (digits, rest) => (some (false, digits), rest)
      | cs => (readDigits cs).map fun (digits, rest) => (some (false, digits), rest)
    else some (none, cs)

/-- A numeral of a given sign, without the sign in the text, and the text after it. -/
def readUnsigned (negative : Bool) (cs : List Char) : Option (Numeral × List Char) := do
  let (whole, cs) ← readWhole cs
  let (fraction, cs) ← readFraction cs
  let (exponent, cs) ← readExponent cs
  return (⟨negative, whole, fraction, exponent⟩, cs)

/-- A numeral, and the text after it. -/
def readNumeral : List Char → Option (Numeral × List Char)
  | '-' :: cs => readUnsigned true cs
  | cs => readUnsigned false cs

/-! ## Documents -/

/-- A document that holds no other, and the text after it. -/
def readLeaf (cs : List Char) : Document × List Char :=
  match cs with
  | 'n' :: 'u' :: 'l' :: 'l' :: rest => (null, rest)
  | 't' :: 'r' :: 'u' :: 'e' :: rest => (bool true, rest)
  | 'f' :: 'a' :: 'l' :: 's' :: 'e' :: rest => (bool false, rest)
  | '"' :: rest =>
    match readString true [] rest with
    | some (s, rest) => (string s, rest)
    | none => (broken, [])
  | cs =>
    match readNumeral cs with
    | some (n, rest) => (number n, rest)
    | none => (broken, [])

/-! ### Readers leave no more than they were given -/

theorem length_skipBlanks_le (cs : List Char) : (skipBlanks cs).length ≤ cs.length :=
  (List.dropWhile_suffix isJsonBlank).length_le

theorem readString_rest_le {valid : Bool} {read cs rest : List Char} {s : Option String}
    (h : readString valid read cs = some (s, rest)) : rest.length ≤ cs.length := by
  fun_induction readString valid read cs <;> simp_all <;> omega

theorem readDigits_rest_le {cs digits rest : List Char} (h : readDigits cs = some (digits, rest)) :
    rest.length ≤ cs.length := by
  have le := (List.dropWhile_suffix Char.isDigit (l := cs)).length_le
  simp only [readDigits] at h
  split at h <;> simp_all

theorem readWhole_rest_le {cs digits rest : List Char} (h : readWhole cs = some (digits, rest)) :
    rest.length ≤ cs.length := by
  unfold readWhole at h
  split at h
  · simp at h
  · exact readDigits_rest_le h

theorem readFraction_rest_le {cs rest : List Char} {f : Option (List Char)}
    (h : readFraction cs = some (f, rest)) : rest.length ≤ cs.length := by
  unfold readFraction at h
  split at h
  · obtain ⟨⟨digits, r⟩, h, e⟩ := Option.map_eq_some_iff.1 h
    have := readDigits_rest_le h
    simp at e
    simp [← e.2]
    omega
  · simp_all

theorem readExponent_rest_le {cs rest : List Char} {e : Option (Bool × List Char)}
    (h : readExponent cs = some (e, rest)) : rest.length ≤ cs.length := by
  unfold readExponent at h
  split at h
  · simp_all
  · split at h
    · split at h <;>
      · obtain ⟨⟨digits, r⟩, h, e⟩ := Option.map_eq_some_iff.1 h
        have := readDigits_rest_le h
        simp at e
        simp [← e.2]
        omega
    · simp_all

theorem readUnsigned_rest_le {negative : Bool} {cs rest : List Char} {n : Numeral}
    (h : readUnsigned negative cs = some (n, rest)) : rest.length ≤ cs.length := by
  simp only [readUnsigned, Option.bind_eq_bind, Option.bind_eq_some_iff, Prod.exists] at h
  obtain ⟨_, r₁, h₁, _, r₂, h₂, _, r₃, h₃, h⟩ := h
  have := readWhole_rest_le h₁
  have := readFraction_rest_le h₂
  have := readExponent_rest_le h₃
  simp at h
  rw [← h.2]
  omega

theorem readNumeral_rest_le {cs rest : List Char} {n : Numeral}
    (h : readNumeral cs = some (n, rest)) : rest.length ≤ cs.length := by
  unfold readNumeral at h
  split at h
  · have := readUnsigned_rest_le h
    simp
    omega
  · exact readUnsigned_rest_le h

theorem readLeaf_rest_le (cs : List Char) : (readLeaf cs).2.length ≤ cs.length := by
  unfold readLeaf
  split
  · simp; omega
  · simp; omega
  · simp; omega
  · split <;> rename_i h
    · have := readString_rest_le h
      simp
      omega
    · simp
  · split <;> rename_i h
    · exact readNumeral_rest_le h
    · simp

/-- Something read from the front of a text of at most `bound` characters, and the text after it. -/
structure Reading (β : Type) (bound : Nat) where
  value : β
  rest : List Char
  le : rest.length ≤ bound

mutual

/-- Reads a document. -/
def readValue (cs : List Char) : Reading Document cs.length :=
  have skip := length_skipBlanks_le cs
  match h : skipBlanks cs with
  | '[' :: rest =>
    have : rest.length < cs.length := by rw [h, List.length_cons] at skip; omega
    match h' : skipBlanks rest with
    | ']' :: after =>
      ⟨array [] true, after, by
        have skip' := length_skipBlanks_le rest
        rw [h', List.length_cons] at skip'; omega⟩
    | _ =>
      let items := readItems rest
      ⟨array items.value.1 items.value.2, items.rest, Nat.le_trans items.le (Nat.le_of_lt this)⟩
  | '\x7b' :: rest =>
    have : rest.length < cs.length := by rw [h, List.length_cons] at skip; omega
    match h' : skipBlanks rest with
    | '\x7d' :: after =>
      ⟨object [] true, after, by
        have skip' := length_skipBlanks_le rest
        rw [h', List.length_cons] at skip'; omega⟩
    | _ =>
      let entries := readEntries rest
      ⟨object entries.value.1 entries.value.2, entries.rest,
        Nat.le_trans entries.le (Nat.le_of_lt this)⟩
  | leaf =>
    ⟨(readLeaf leaf).1, (readLeaf leaf).2, by
      have := readLeaf_rest_le leaf
      rw [← h] at this ⊢
      omega⟩
termination_by (cs.length, 0)

/-- Reads the items of a list up to its end, and whether there is an end. -/
def readItems (cs : List Char) : Reading (List Document × Bool) cs.length :=
  let item := readValue cs
  have skip := length_skipBlanks_le item.rest
  have le := item.le
  match h : skipBlanks item.rest with
  | ',' :: rest =>
    have : rest.length < cs.length := by rw [h, List.length_cons] at skip; omega
    let items := readItems rest
    ⟨(item.value :: items.value.1, items.value.2), items.rest,
      Nat.le_trans items.le (Nat.le_of_lt this)⟩
  | ']' :: rest => ⟨([item.value], true), rest, by rw [h, List.length_cons] at skip; omega⟩
  | _ => ⟨([item.value], false), [], Nat.zero_le _⟩
termination_by (cs.length, 1)

/-- Reads the entries of an object up to its end, and whether there is an end. Nothing is read after
a key that is no string. -/
def readEntries (cs : List Char) : Reading (List (Document × Document) × Bool) cs.length :=
  let key := readValue cs
  have skip := length_skipBlanks_le key.rest
  have le := key.le
  match h : skipBlanks key.rest, key.value.isString with
  | ':' :: rest, true =>
    have : rest.length < cs.length := by rw [h, List.length_cons] at skip; omega
    let value := readValue rest
    have skip' := length_skipBlanks_le value.rest
    have le' := value.le
    match h' : skipBlanks value.rest with
    | ',' :: rest' =>
      have : rest'.length < cs.length := by rw [h', List.length_cons] at skip'; omega
      let entries := readEntries rest'
      ⟨((key.value, value.value) :: entries.value.1, entries.value.2), entries.rest,
        Nat.le_trans entries.le (Nat.le_of_lt this)⟩
    | '\x7d' :: rest' =>
      ⟨([(key.value, value.value)], true), rest', by rw [h', List.length_cons] at skip'; omega⟩
    | _ => ⟨([(key.value, value.value)], false), [], Nat.zero_le _⟩
  | _, _ => ⟨([(key.value, broken)], false), [], Nat.zero_le _⟩
termination_by (cs.length, 1)

end

/-- The document of a text, and whether nothing but blanks follows it. -/
def read (text : String) : Document × Bool :=
  let reading := readValue text.toList
  (reading.value, (skipBlanks reading.rest).isEmpty)

end Document

end ExplicitOde
