import ExplicitOde.Formula.Token
import ExplicitOde.Proofs.Formula.Numeral
import Mathlib.Data.String.Basic

/-!
# Texts and their tokens

A row of characters that begins with a mark, an identifier or a plain numeral is cut into that token
and the tokens of what follows, wherever in a text it stands: `scans_mark`, `scans_name` and
`scans_numeral`. An identifier and a numeral have to end there, so that nothing of what follows is
taken into them.

`Writes` is the same for a part of a text, and parts are put together with marks between them.

The offsets of the tokens grow and lie within the text: `offsets_of_scan`. So an offset belongs to
one token, and the end of the text to none.
-/

namespace ExplicitOde

open C (Digits Ends isNumberRest)

variable {α : Type} [Scalar α] {rest : List Char} {ts : List (Token α)}

/-- The characters are cut into these tokens, at whatever offset they begin. -/
def Scans (cs : List Char) (ts : List (Token α)) : Prop :=
  ∀ offset, ∃ placed, scan offset cs = .ok placed ∧ placed.map Prod.fst = ts

theorem scans_nil : Scans [] ([] : List (Token α)) :=
  fun _ => ⟨[], by rw [scan], rfl⟩

/-- Blanks leave no token. -/
theorem scans_blanks {cs : List Char} (h : ∀ c ∈ cs, isBlank c = true) :
    Scans cs ([] : List (Token α)) := by
  induction cs with
  | nil => exact scans_nil
  | cons c cs ih =>
      intro offset
      obtain ⟨placed, hscan, htokens⟩ :=
        ih (fun c' hc' => h c' (List.mem_cons_of_mem c hc')) (offset + c.utf8Size)
      refine ⟨placed, ?_, htokens⟩
      rw [scan, if_pos (h c List.mem_cons_self), hscan]

/-! ## Marks and identifiers -/

theorem scans_mark (m : Mark) (hrest : Scans rest ts) :
    Scans (m.char :: rest) (.mark m :: ts) := by
  intro offset
  obtain ⟨placed, hscan, htokens⟩ := hrest (offset + m.char.utf8Size)
  refine ⟨(.mark m, offset) :: placed, ?_, congrArg (Token.mark m :: ·) htokens⟩
  -- the character of a mark begins nothing else
  have hblank : isBlank m.char = false := by cases m <;> decide
  have hnumber : isNumberStart m.char = false := by cases m <;> decide
  have hname : isNameStart m.char = false := by cases m <;> decide
  have hmark : Mark.ofChar? m.char = some m := by cases m <;> decide
  rw [scan, hblank, if_neg Bool.false_ne_true, dif_neg (Bool.eq_false_iff.mp hnumber), hname,
    if_neg Bool.false_ne_true, hmark]
  dsimp only
  rw [hscan]

/-- Printable characters of ASCII are no blanks. -/
theorem isBlank_of_lt {c : Char} (hlow : 0x20 < c.toNat) (hhigh : c.toNat < 0x85) :
    isBlank c = false := by
  rw [isBlank, List.any_eq_false]
  simp only [blankRanges, List.forall_mem_cons, Bool.and_eq_true, decide_eq_true_eq, not_and]
  refine ⟨?_, ?_, ?_, ?_, ?_, ?_, ?_, ?_, ?_, ?_, by simp⟩ <;> omega

theorem toNat_of_isNameStart {c : Char} (h : isNameStart c = true) :
    0x40 < c.toNat ∧ c.toNat < 0x7B := by
  simp only [isNameStart, Char.isAlpha, Char.isUpper, Char.isLower, Bool.or_eq_true,
    Bool.and_eq_true, decide_eq_true_eq, beq_iff_eq, ge_iff_le, UInt32.le_iff_toNat_le] at h
  rcases h with (h | h) | rfl
  · exact ⟨h.1, Nat.lt_of_le_of_lt h.2 (by decide)⟩
  · exact ⟨Nat.lt_of_lt_of_le (by decide) h.1, Nat.lt_succ_of_le h.2⟩
  · decide

theorem toNat_of_isDigit {c : Char} (h : c.isDigit = true) : 0x2F < c.toNat ∧ c.toNat < 0x3A := by
  simp only [Char.isDigit, Bool.and_eq_true, decide_eq_true_eq, ge_iff_le,
    UInt32.le_iff_toNat_le] at h
  exact ⟨h.1, Nat.lt_succ_of_le h.2⟩

theorem not_isNumberStart_of_isNameStart {c : Char} (h : isNameStart c = true) :
    isNumberStart c = false := by
  have hcode := toNat_of_isNameStart h
  rw [isNumberStart, Bool.or_eq_false_iff]
  constructor
  · by_contra hdigit
    rw [Bool.not_eq_false] at hdigit
    have := toNat_of_isDigit hdigit
    omega
  · refine beq_false_of_ne fun hpoint => ?_
    subst hpoint
    exact absurd h (by decide)

/-- An identifier ends where no name goes on. -/
theorem scans_name {s : String} (hs : isIdentifier s = true) (hends : Ends rest)
    (hrest : Scans rest ts) : Scans (s.toList ++ rest) (.name s :: ts) := by
  unfold isIdentifier at hs
  split at hs
  · exact absurd hs Bool.false_ne_true
  rename_i c cs hcs
  rw [Bool.and_eq_true, List.all_eq_true] at hs
  obtain ⟨htake, hdrop⟩ := hends.takeWhile cs hs.2
  have hcode := toNat_of_isNameStart hs.1
  intro offset
  obtain ⟨placed, hscan, htokens⟩ := hrest (offset + byteLength (c :: cs))
  refine ⟨(.name s, offset) :: placed, ?_, congrArg (Token.name s :: ·) htokens⟩
  rw [hcs, List.cons_append, scan, isBlank_of_lt (by omega) (by omega),
    if_neg Bool.false_ne_true,
    dif_neg (Bool.eq_false_iff.mp (not_isNumberStart_of_isNameStart hs.1)), if_pos hs.1]
  dsimp only [nameRun]
  rw [htake, hdrop, hscan, ← hcs, String.ofList_toList]

/-! ## Plain numerals -/

/-- A decimal numeral without sign and exponent: digits, and perhaps a fraction. -/
structure PlainNumeral where
  whole : List Char
  fraction : List Char
  whole_digits : Digits whole
  fraction_digits : ∀ c ∈ fraction, c.isDigit = true

namespace PlainNumeral

/-- The text of a numeral. There is a point where there is a fraction. -/
def chars (n : PlainNumeral) : List Char :=
  n.whole ++ if n.fraction.isEmpty then [] else '.' :: n.fraction

/-- What a numeral stands for. -/
def value (n : PlainNumeral) : Decimal :=
  ⟨digitsValue (n.whole ++ n.fraction), -(n.fraction.length : Int)⟩

/-- A numeral is read as what it stands for. -/
theorem read_chars (n : PlainNumeral) : Decimal.read n.chars = some n.value := by
  refine Decimal.Denotes.read ?_
  unfold chars value
  cases hempty : n.fraction with
  | nil =>
      have hdenotes := Decimal.Denotes.whole n.whole_digits .none
      simpa using hdenotes
  | cons c cs =>
      have hdigits : Digits (n.whole ++ c :: cs) :=
        ⟨by simp, List.forall_mem_append.mpr ⟨n.whole_digits.2, hempty ▸ n.fraction_digits⟩⟩
      have hdenotes := Decimal.Denotes.point hdigits .none
      simpa using hdenotes

/-- All characters of a numeral are digits or a point. -/
theorem isNumberStart_of_mem (n : PlainNumeral) : ∀ c ∈ n.chars, isNumberStart c = true := by
  have hdigit : ∀ c : Char, c.isDigit = true → isNumberStart c = true := by
    intro c hc
    rw [isNumberStart, hc, Bool.true_or]
  intro c hc
  rw [chars, List.mem_append] at hc
  rcases hc with hc | hc
  · exact hdigit c (n.whole_digits.2 c hc)
  · split at hc
    · exact absurd hc List.not_mem_nil
    · rcases List.mem_cons.mp hc with rfl | hc
      · rfl
      · exact hdigit c (n.fraction_digits c hc)

end PlainNumeral

/-- Digits and points belong to a number, and no sign belongs to it directly after them. -/
theorem numberRun_append_of_isNumberStart {cs : List Char} (hends : Ends rest)
    (hcs : ∀ c ∈ cs, isNumberStart c = true) : numberRun false (cs ++ rest) = (cs, rest) := by
  induction cs with
  | nil =>
      cases rest with
      | nil => rfl
      | cons d rest =>
          have hd := hends d rfl
          rw [isNumberRest, Bool.or_eq_false_iff, isNameRest, Bool.or_eq_false_iff,
            Char.isAlphanum, Bool.or_eq_false_iff] at hd
          have hletter : ∀ e : Char, e.isAlpha = true → (d == e) = false := by
            intro e he
            refine beq_false_of_ne fun hde => ?_
            rw [hde, he] at hd
            exact Bool.noConfusion hd.1.1.1
          rw [List.nil_append, numberRun, isNumberStart, hd.1.1.2, hd.2, hletter 'e' rfl,
            hletter 'E' rfl]
          rfl
  | cons c cs ih =>
      have hc := hcs c List.mem_cons_self
      -- an exponent begins with a letter, which is neither a digit nor a point
      have hletter : ∀ e : Char, isNumberStart e = false → (c == e) = false := by
        intro e he
        refine beq_false_of_ne fun hce => ?_
        rw [hce, he] at hc
        exact Bool.noConfusion hc
      rw [List.cons_append, numberRun, hletter 'e' rfl, hletter 'E' rfl, hc, Bool.or_false,
        Bool.true_or, Bool.true_or, if_pos rfl, ih fun d hd => hcs d (List.mem_cons_of_mem c hd)]

/-- A plain numeral ends where no number goes on. -/
theorem scans_numeral (n : PlainNumeral) (hends : Ends rest) (hrest : Scans rest ts) :
    Scans (n.chars ++ rest) (.number (Scalar.ofDecimal n.value) :: ts) := by
  intro offset
  obtain ⟨placed, hscan, htokens⟩ := hrest (offset + byteLength n.chars)
  refine ⟨(.number (Scalar.ofDecimal n.value), offset) :: placed, ?_,
    congrArg (Token.number _ :: ·) htokens⟩
  have hrun := numberRun_append_of_isNumberStart hends n.isNumberStart_of_mem
  obtain ⟨hne, hdigits⟩ := n.whole_digits
  obtain ⟨c, cs, hwhole⟩ := List.exists_cons_of_ne_nil hne
  have hc : c.isDigit = true := hdigits c (hwhole ▸ List.mem_cons_self)
  have hcode := toNat_of_isDigit hc
  have hstart : isNumberStart c = true := by rw [isNumberStart, hc, Bool.true_or]
  obtain ⟨tail, htail⟩ : ∃ tail, n.chars = c :: tail := ⟨_, by rw [PlainNumeral.chars, hwhole]; rfl⟩
  have hread := n.read_chars
  rw [htail] at hrun hscan hread ⊢
  rw [List.cons_append] at hrun ⊢
  rw [scan, isBlank_of_lt (by omega) (by omega), if_neg Bool.false_ne_true, dif_pos hstart]
  dsimp only
  rw [hrun]
  dsimp only
  rw [hread]
  dsimp only
  rw [hscan]

/-! ## Parts of texts -/

/-- The characters are cut into these tokens, where no name and no number goes on after them. -/
def Writes (cs : List Char) (ts : List (Token α)) : Prop :=
  ∀ rest us, Ends rest → Scans rest us → Scans (cs ++ rest) (ts ++ us)

namespace Writes

variable {cs ds : List Char} {us : List (Token α)}

theorem nil : Writes [] ([] : List (Token α)) := fun _ _ _ hrest => hrest

theorem name {s : String} (hs : isIdentifier s = true) :
    Writes s.toList [(.name s : Token α)] :=
  fun _ _ hends hrest => scans_name hs hends hrest

theorem numeral (n : PlainNumeral) :
    Writes n.chars [(.number (Scalar.ofDecimal n.value) : Token α)] :=
  fun _ _ hends hrest => scans_numeral n hends hrest

theorem afterMark (m : Mark) (h : Writes cs ts) : Writes (m.char :: cs) (.mark m :: ts) :=
  fun rest _ hends hrest => scans_mark m (h rest _ hends hrest)

/-- A mark ends the part before it. -/
theorem join (m : Mark) (h : Writes cs ts) (h' : Writes ds us) :
    Writes (cs ++ m.char :: ds) (ts ++ .mark m :: us) := by
  have hmark : isNumberRest m.char = false := by cases m <;> decide
  intro rest vs hends hrest
  rw [List.append_assoc, List.append_assoc]
  exact h _ _ (C.ends_cons hmark) (scans_mark m (h' rest vs hends hrest))

/-- A part that is the whole text. -/
theorem scans (h : Writes cs ts) : Scans cs ts := by
  have hwhole := h [] [] (by simp [Ends]) scans_nil
  rw [List.append_nil, List.append_nil] at hwhole
  exact hwhole

end Writes

/-! ## Offsets -/

theorem byteLength_cons (c : Char) (cs : List Char) :
    byteLength (c :: cs) = c.utf8Size + byteLength cs := rfl

theorem byteLength_append (cs ds : List Char) :
    byteLength (cs ++ ds) = byteLength cs + byteLength ds := by
  induction cs with
  | nil => exact (Nat.zero_add _).symm
  | cons c cs ih => rw [List.cons_append, byteLength_cons, ih, byteLength_cons, Nat.add_assoc]

theorem byteLength_pos (c : Char) (cs : List Char) : 0 < byteLength (c :: cs) :=
  Nat.lt_of_lt_of_le c.utf8Size_pos (Nat.le_add_right _ _)

theorem byteLength_toList (text : String) : byteLength text.toList = text.utf8ByteSize := by
  have hall : ∀ cs : List Char, byteLength cs = String.utf8Len cs := by
    intro cs
    induction cs with
    | nil => rfl
    | cons c cs ih => rw [byteLength_cons, ih, String.utf8Len_cons, Nat.add_comm]
  rw [hall, ← String.utf8ByteSize_ofList, String.ofList_toList]

/-- The offsets of some tokens grow, from one offset on and before another. -/
structure Offsets {α : Type} (first stop : Nat) (placed : List (Placed α)) : Prop where
  increasing : (placed.map Prod.snd).Pairwise (· < ·)
  bounds : ∀ offset ∈ placed.map Prod.snd, first ≤ offset ∧ offset < stop

namespace Offsets

variable {first next stop : Nat} {placed : List (Placed α)}

omit [Scalar α] in
theorem earlier (h : Offsets next stop placed) (hle : first ≤ next) : Offsets first stop placed :=
  ⟨h.increasing, fun o ho => ⟨Nat.le_trans hle (h.bounds o ho).1, (h.bounds o ho).2⟩⟩

omit [Scalar α] in
theorem cons (t : Token α) (h : Offsets next stop placed) (hlt : first < next)
    (hle : next ≤ stop) : Offsets first stop ((t, first) :: placed) := by
  refine ⟨List.pairwise_cons.mpr ⟨fun o ho => ?_, h.increasing⟩, ?_⟩
  · exact Nat.lt_of_lt_of_le hlt (h.bounds o ho).1
  · exact List.forall_mem_cons.mpr ⟨⟨Nat.le_refl _, Nat.lt_of_lt_of_le hlt hle⟩,
      (h.earlier (Nat.le_of_lt hlt)).bounds⟩

end Offsets

/-- A number has the character it begins with. -/
theorem exists_numberRun_cons {c : Char} (cs : List Char) (h : isNumberStart c = true) :
    ∃ run, (numberRun false (c :: cs)).1 = c :: run :=
  ⟨_, by rw [numberRun, h, Bool.true_or, Bool.true_or, if_pos rfl]⟩

/-- The tokens of a row of characters begin within it, one after the other. -/
theorem offsets_of_scan {cs : List Char} {offset : Nat} {placed : List (Placed α)}
    (h : scan offset cs = .ok placed) : Offsets offset (offset + byteLength cs) placed := by
  fun_induction scan (α := α) offset cs generalizing placed with
  | case1 => exact Except.ok.inj h ▸ ⟨.nil, List.forall_mem_nil _⟩
  | case2 offset c cs hblank ih =>
      -- a blank
      rw [byteLength_cons, ← Nat.add_assoc]
      exact (ih h).earlier (Nat.le_add_right offset _)
  | case5 offset c cs hblank hstart _ run d hread ts hts =>
      -- a number
      rename_i ih
      obtain rfl := Except.ok.inj h
      have hsplit : byteLength (c :: cs) = byteLength run.1 + byteLength run.2 := by
        rw [← byteLength_append, numberRun_append]
      have hpos : 0 < byteLength run.1 := by
        obtain ⟨tail, htail⟩ := exists_numberRun_cons cs hstart
        exact htail ▸ byteLength_pos c tail
      rw [hsplit, ← Nat.add_assoc]
      exact (ih hts).cons _ (by omega) (by omega)
  | case7 offset c cs hblank hstart hname _ run ts hts =>
      -- a name
      rename_i ih
      obtain rfl := Except.ok.inj h
      have hsplit : byteLength (c :: cs) = byteLength (c :: run.1) + byteLength run.2 := by
        rw [← byteLength_append, List.cons_append]
        exact congrArg (fun ds => byteLength (c :: ds)) List.takeWhile_append_dropWhile.symm
      have hpos := byteLength_pos c run.1
      rw [hsplit, ← Nat.add_assoc]
      exact (ih hts).cons _ (by omega) (by omega)
  | case10 offset c cs hblank hstart hname m hm ts hts ih =>
      obtain rfl := Except.ok.inj h
      -- a mark
      have hpos := c.utf8Size_pos
      rw [byteLength_cons, ← Nat.add_assoc]
      exact (ih hts).cons _ (by omega) (by omega)
  | _ => exact nomatch h

/-- The tokens of a text begin within it, one after the other. -/
theorem offsets_of_tokenize {text : String} {placed : List (Placed α)}
    (h : tokenize text = .ok placed) : Offsets 0 text.utf8ByteSize placed := by
  rw [tokenize] at h
  split at h
  · rename_i hscan
    obtain rfl := Except.ok.inj h
    have hoffsets := offsets_of_scan hscan
    rwa [byteLength_toList, Nat.zero_add] at hoffsets
  · exact nomatch h

end ExplicitOde
