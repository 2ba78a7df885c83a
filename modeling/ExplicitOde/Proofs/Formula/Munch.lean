import ExplicitOde.Proofs.Formula.Blank
import ExplicitOde.Proofs.Formula.Numeral
import ExplicitOde.Proofs.Formula.Scan
import ExplicitOde.Scalar.Double

/-!
# How a text is cut

**A text is cut into tokens, each as long as it can be, with nothing but blanks between them, and
nothing of it is lost**: `tokenize_segments`. It is put together from the segments of the cut, which
are blanks and the text of a token, and the offset of a token is the length of what is before it. A
text that is refused is cut up to a place where no token begins, or where a run of digits, points,
exponent letters and their signs denotes no number.

How far a token goes is told apart from the scanner: as a name or a number as long as there is one
(`Longest`). Both go on character by character, so it is enough to look at one character behind the
token. Blanks go on with neither, which is why more of them change no token.
-/

namespace ExplicitOde

/-! ## As long as possible -/

/-- The text is of this kind, and goes on with nothing of what follows. -/
structure Longest (P : List Char → Prop) (run after : List Char) : Prop where
  holds : P run
  longest : ∀ front back, after = front ++ back → P (run ++ front) → front = []

/-- What begins a text of this kind is of this kind, unless it is empty. -/
def Extends (P : List Char → Prop) : Prop :=
  ∀ run front, run ≠ [] → P (run ++ front) → P run

namespace Longest

variable {P : List Char → Prop} {run run' after after' : List Char}

/-- It is enough to look at the next character. -/
theorem of_head (hextends : Extends P) (holds : P run)
    (hnext : ∀ c ∈ after.head?, ¬P (run ++ [c])) : Longest P run after := by
  refine ⟨holds, fun front back hafter hfront => ?_⟩
  cases front with
  | nil => rfl
  | cons c front =>
      subst hafter
      rw [← List.singleton_append, ← List.append_assoc] at hfront
      exact absurd (hextends _ front (by simp) hfront) (hnext c rfl)

theorem head (h : Longest P run after) : ∀ c ∈ after.head?, ¬P (run ++ [c]) := by
  intro c hc hgoes
  obtain ⟨tail, rfl⟩ : ∃ tail, after = c :: tail := by
    cases after with
    | nil => exact nomatch hc
    | cons d tail => exact ⟨tail, by rw [Option.some.inj hc]⟩
  exact absurd (h.longest [c] tail rfl hgoes) (List.cons_ne_nil c [])

/-- Where nothing follows. -/
theorem atEnd (holds : P run) : Longest P run [] :=
  ⟨holds, fun _ _ h _ => (List.append_eq_nil_iff.mp h.symm).1⟩

/-- What follows can be changed to what begins alike, or with something that does not go on. -/
theorem follow (hextends : Extends P) (h : Longest P run after)
    (hafter : ∀ c ∈ after'.head?, ¬P (run ++ [c]) ∨ c ∈ after.head?) : Longest P run after' :=
  of_head hextends h.holds fun c hc => (hafter c hc).elim id (h.head c)

/-- A text begins with one longest part at most. -/
theorem unique (h : Longest P run after) (h' : Longest P run' after')
    (htext : run ++ after = run' ++ after') : run = run' ∧ after = after' := by
  obtain ⟨front, rfl, rfl⟩ | ⟨front, rfl, rfl⟩ := List.append_eq_append_iff.mp htext
  · obtain rfl := h.longest front after' rfl h'.holds
    exact ⟨(List.append_nil run).symm, rfl⟩
  · obtain rfl := h'.longest front after rfl h.holds
    exact ⟨List.append_nil run', rfl⟩

end Longest

/-! ## Runs of numbers -/

/-- A character of a number behind another one: a digit, a point, the letter of an exponent, or a
sign behind that letter. -/
def GoesOn (before c : Char) : Prop :=
  isNumberStart c = true ∨ c ∈ ['e', 'E'] ∨ before ∈ ['e', 'E'] ∧ c ∈ ['+', '-']

/-- A row of characters of a number, with a digit or a point as its first. -/
structure IsNumberRun (run : List Char) : Prop where
  starts : ∃ c ∈ run.head?, isNumberStart c = true
  goesOn : run.IsChain GoesOn

theorem IsNumberRun.ne_nil {run : List Char} (h : IsNumberRun run) : run ≠ [] := by
  rintro rfl
  obtain ⟨c, hc, _⟩ := h.starts
  exact nomatch hc

theorem isNumberRun_cons {c : Char} {cs : List Char} :
    IsNumberRun (c :: cs) ↔ isNumberStart c = true ∧ (c :: cs).IsChain GoesOn := by
  constructor
  · rintro ⟨⟨d, hd, hstart⟩, hchain⟩
    exact ⟨Option.some.inj hd ▸ hstart, hchain⟩
  · rintro ⟨hstart, hchain⟩
    exact ⟨⟨c, rfl, hstart⟩, hchain⟩

theorem extends_isNumberRun : Extends IsNumberRun := by
  intro run front hne h
  obtain ⟨c, cs, rfl⟩ := List.exists_cons_of_ne_nil hne
  rw [List.cons_append, isNumberRun_cons] at h
  exact isNumberRun_cons.mpr ⟨h.1, (List.cons_append ▸ h.2).left_of_append⟩

/-- What the scanner takes goes on behind the character before it, and no further. -/
theorem numberRun_goesOn (before : Char) (cs : List Char) :
    (before :: (numberRun (before == 'e' || before == 'E') cs).1).IsChain GoesOn ∧
      ∀ c ∈ (numberRun (before == 'e' || before == 'E') cs).2.head?,
        ¬(before :: ((numberRun (before == 'e' || before == 'E') cs).1 ++ [c])).IsChain GoesOn := by
  induction cs generalizing before with
  | nil => exact ⟨.singleton before, fun _ hc => nomatch hc⟩
  | cons c cs ih =>
      have hgoes : (isNumberStart c || (c == 'e' || c == 'E') ||
          ((before == 'e' || before == 'E') && (c == '+' || c == '-'))) = true ↔
            GoesOn before c := by
        simp [GoesOn, or_assoc]
      rw [numberRun]
      by_cases h : GoesOn before c
      · dsimp only
        rw [if_pos (hgoes.mpr h)]
        obtain ⟨hchain, hends⟩ := ih c
        exact ⟨List.isChain_cons_cons.mpr ⟨h, hchain⟩, fun d hd hlonger =>
          hends d hd (List.isChain_cons_cons.mp hlonger).2⟩
      · dsimp only
        rw [if_neg (hgoes.not.mpr h)]
        refine ⟨.singleton before, fun d hd hlonger => h ?_⟩
        obtain rfl := Option.some.inj hd
        exact (List.isChain_cons_cons.mp hlonger).1

/-- **The scanner takes the longest run.** -/
theorem longest_numberRun {c : Char} (cs : List Char) (hc : isNumberStart c = true) :
    Longest IsNumberRun (numberRun false (c :: cs)).1 (numberRun false (c :: cs)).2 := by
  obtain ⟨hchain, hends⟩ := numberRun_goesOn c cs
  rw [numberRun, hc]
  refine .of_head extends_isNumberRun (isNumberRun_cons.mpr ⟨hc, hchain⟩) ?_
  exact fun d hd hlonger => hends d hd (isNumberRun_cons.mp hlonger).2

/-- A longest run is the one that the scanner takes. -/
theorem numberRun_of_longest {c : Char} {cs after : List Char}
    (h : Longest IsNumberRun (c :: cs) after) :
    numberRun false (c :: (cs ++ after)) = (c :: cs, after) := by
  have htaken := longest_numberRun (cs ++ after) (isNumberRun_cons.mp h.holds).1
  have htext := numberRun_append false (c :: (cs ++ after))
  obtain ⟨hrun, hafter⟩ := htaken.unique h htext
  exact Prod.ext hrun hafter

/-! ## Names -/

/-- The characters are an identifier. -/
def IsName (cs : List Char) : Prop := isIdentifier (String.ofList cs) = true

theorem isName_cons {c : Char} {cs : List Char} :
    IsName (c :: cs) ↔ isNameStart c = true ∧ ∀ d ∈ cs, isNameRest d = true := by
  simp [IsName, isIdentifier]

theorem IsName.ne_nil {cs : List Char} (h : IsName cs) : cs ≠ [] := by
  rintro rfl
  exact absurd h (by simp [IsName, isIdentifier])

theorem extends_isName : Extends IsName := by
  intro run front hne h
  obtain ⟨c, cs, rfl⟩ := List.exists_cons_of_ne_nil hne
  rw [List.cons_append, isName_cons] at h
  exact isName_cons.mpr ⟨h.1, fun d hd => h.2 d (List.mem_append_left front hd)⟩

/-- The scanner takes the longest name. -/
theorem longest_nameRun {c : Char} (cs : List Char) (hc : isNameStart c = true) :
    Longest IsName (c :: (nameRun cs).1) (nameRun cs).2 := by
  have hrun : ∀ d ∈ (nameRun cs).1, isNameRest d = true := fun d hd => List.mem_takeWhile_imp hd
  refine .of_head extends_isName (isName_cons.mpr ⟨hc, hrun⟩) ?_
  intro d hd hlonger
  have hends : isNameRest d = false := by
    have hnot := List.head?_dropWhile_not isNameRest cs
    rwa [show (cs.dropWhile isNameRest).head? = some d from hd] at hnot
  have hgoes := (isName_cons.mp hlonger).2 d (by simp)
  rw [hends] at hgoes
  exact Bool.noConfusion hgoes

/-- A longest name is the one that the scanner takes. -/
theorem nameRun_of_longest {c : Char} {cs after : List Char} (h : Longest IsName (c :: cs) after) :
    nameRun (cs ++ after) = (cs, after) := by
  have htaken := longest_nameRun (cs ++ after) (isName_cons.mp h.holds).1
  have htext : (c :: (nameRun (cs ++ after)).1) ++ (nameRun (cs ++ after)).2 = (c :: cs) ++ after :=
    congrArg (c :: ·) (List.takeWhile_append_dropWhile)
  obtain ⟨hrun, hafter⟩ := htaken.unique h htext
  exact Prod.ext (List.cons.inj hrun).2 hafter

/-! ## Texts of tokens -/

variable {α : Type}

/-- Blanks separate tokens. -/
def Blanks (cs : List Char) : Prop := ∀ c ∈ cs, isBlank c = true

theorem not_isBlank_of_isNameRest {c : Char} (h : isNameRest c = true) : isBlank c = false := by
  rw [isNameRest, Char.isAlphanum, Bool.or_right_comm, Bool.or_eq_true] at h
  rcases h with hname | hdigit
  · have hcode := toNat_of_isNameStart hname
    exact isBlank_of_lt (by omega) (by omega)
  · have hcode := toNat_of_isDigit hdigit
    exact isBlank_of_lt (by omega) (by omega)

theorem GoesOn.not_isBlank {before c : Char} (h : GoesOn before c) : isBlank c = false := by
  have hsigns : ∀ c ∈ ['e', 'E', '+', '-', '.'], isBlank c = false := by
    simp only [List.forall_mem_cons]
    refine ⟨?_, ?_, ?_, ?_, ?_, List.forall_mem_nil _⟩ <;>
      exact isBlank_of_lt (by decide) (by decide)
  rcases h with hstart | hletter | ⟨_, hsign⟩
  · rw [isNumberStart, Bool.or_eq_true, beq_iff_eq] at hstart
    rcases hstart with hdigit | rfl
    · exact not_isBlank_of_isNameRest (by rw [isNameRest, Char.isAlphanum, hdigit]; simp)
    · exact hsigns '.' (by decide)
  · exact hsigns c (List.mem_append_left ['+', '-', '.'] hletter)
  · exact hsigns c (List.mem_append_right ['e', 'E'] (List.mem_append_left ['.'] hsign))

/-- No number goes on with a blank. -/
theorem not_isNumberRun_blank {c : Char} {run : List Char} (hc : isBlank c = true)
    (hne : run ≠ []) : ¬IsNumberRun (run ++ [c]) := by
  intro h
  have hgoes := (List.isChain_append.mp h.goesOn).2.2 _ (List.getLast?_eq_some_getLast hne) c rfl
  rw [hgoes.not_isBlank] at hc
  exact Bool.noConfusion hc

/-- No name goes on with a blank. -/
theorem not_isName_blank {c : Char} {run : List Char} (hc : isBlank c = true) (hne : run ≠ []) :
    ¬IsName (run ++ [c]) := by
  obtain ⟨d, ds, rfl⟩ := List.exists_cons_of_ne_nil hne
  intro h
  have hgoes := (isName_cons.mp h).2 c (by simp)
  rw [not_isBlank_of_isNameRest hgoes] at hc
  exact Bool.noConfusion hc

section

variable [Scalar α] {run after after' : List Char} {t : Token α}

/-- The text of a token where this follows: a longest number and what it denotes, a longest name, or
the character of a mark. -/
inductive Lexeme (after : List Char) : List Char → Token α → Prop where
  | number {run : List Char} {d : Decimal} (hrun : Longest IsNumberRun run after)
      (hdenotes : Decimal.Denotes run d) : Lexeme after run (.number (Scalar.ofDecimal d))
  | name {run : List Char} (hrun : Longest IsName run after) :
      Lexeme after run (.name (String.ofList run))
  | mark (m : Mark) : Lexeme after [m.char] (.mark m)

namespace Lexeme

theorem ne_nil (h : Lexeme after run t) : run ≠ [] := by
  cases h with
  | number hrun => exact hrun.holds.ne_nil
  | name hrun => exact hrun.holds.ne_nil
  | mark m => exact List.cons_ne_nil _ _

/-- A token is the same where something else follows, if that begins alike or with a blank. -/
theorem follow (h : Lexeme after run t)
    (hafter : ∀ c ∈ after'.head?, isBlank c = true ∨ c ∈ after.head?) : Lexeme after' run t := by
  have hne := h.ne_nil
  cases h with
  | number hrun hdenotes =>
      exact .number (hrun.follow extends_isNumberRun fun c hc =>
        (hafter c hc).imp_left fun hblank => not_isNumberRun_blank hblank hne) hdenotes
  | name hrun =>
      exact .name (hrun.follow extends_isName fun c hc =>
        (hafter c hc).imp_left fun hblank => not_isName_blank hblank hne)
  | mark m => exact .mark m

/-- A token begins with no blank. -/
theorem not_isBlank_head (h : Lexeme after run t) : ∀ c ∈ run.head?, isBlank c = false := by
  intro c hc
  cases h with
  | number hrun =>
      obtain ⟨d, hd, hstart⟩ := hrun.holds.starts
      obtain rfl := Option.mem_unique hc hd
      have hgoes : GoesOn c c := Or.inl hstart
      exact hgoes.not_isBlank
  | @name run hrun =>
      obtain ⟨d, ds, rfl⟩ := List.exists_cons_of_ne_nil hrun.holds.ne_nil
      obtain rfl := Option.some.inj hc
      exact not_isBlank_of_isNameRest (C.isNameRest_of_isNameStart (isName_cons.mp hrun.holds).1)
  | mark m =>
      obtain rfl := Option.some.inj hc
      cases m <;> decide

/-- **The scanner takes a token off the text, and goes on behind it.** -/
theorem scan (h : Lexeme after run t) (offset : Nat) :
    scan offset (run ++ after) =
      (scan (offset + byteLength run) after).map ((t, offset) :: ·) := by
  have hhead := h.not_isBlank_head
  cases h with
  | @number run d hrun hdenotes =>
      obtain ⟨c, cs, rfl⟩ := List.exists_cons_of_ne_nil hrun.holds.ne_nil
      rw [List.cons_append, ExplicitOde.scan, hhead c rfl, if_neg Bool.false_ne_true,
        dif_pos (isNumberRun_cons.mp hrun.holds).1]
      dsimp only
      rw [numberRun_of_longest hrun]
      dsimp only
      rw [hdenotes.read]
      cases ExplicitOde.scan (α := α) (offset + byteLength (c :: cs)) after <;> rfl
  | @name run hrun =>
      obtain ⟨c, cs, rfl⟩ := List.exists_cons_of_ne_nil hrun.holds.ne_nil
      have hstart := (isName_cons.mp hrun.holds).1
      rw [List.cons_append, ExplicitOde.scan, hhead c rfl, if_neg Bool.false_ne_true,
        dif_neg (Bool.eq_false_iff.mp (not_isNumberStart_of_isNameStart hstart)), if_pos hstart]
      dsimp only
      rw [nameRun_of_longest hrun]
      dsimp only
      cases ExplicitOde.scan (α := α) (offset + byteLength (c :: cs)) after <;> rfl
  | mark m =>
      -- no mark begins a number or a name
      have hnumber : isNumberStart m.char = false := by cases m <;> decide
      have hname : isNameStart m.char = false := by cases m <;> decide
      have hmark : Mark.ofChar? m.char = some m := by cases m <;> decide
      rw [List.singleton_append, ExplicitOde.scan, hhead _ rfl, if_neg Bool.false_ne_true,
        dif_neg (Bool.eq_false_iff.mp hnumber), hname, if_neg Bool.false_ne_true, hmark]
      dsimp only
      have hlength : byteLength [m.char] = m.char.utf8Size := Nat.add_zero _
      rw [hlength]
      cases ExplicitOde.scan (α := α) (offset + m.char.utf8Size) after <;> rfl

end Lexeme

/-! ## Where no token is read -/

/-- A text is refused at its beginning: no token begins with its first character, or the number that
begins there is none. -/
inductive Refused (α : Type) [Scalar α] : List Char → FormulaProblem → Prop where
  | character {c : Char} {cs : List Char} (hblank : isBlank c = false)
      (hnone : ∀ (run after : List Char) (t : Token α), Lexeme after (c :: run) t → False) :
      Refused α (c :: cs) (.unexpectedCharacter c)
  | number {run after : List Char} (hrun : Longest IsNumberRun run after)
      (hnone : ∀ d, ¬Decimal.Denotes run d) :
      Refused α (run ++ after) (.invalidNumber (String.ofList run))

/-- A token begins with a digit or a point, the first character of a name, or a mark, and with each
of them there is one. -/
theorem begins_iff {c : Char} :
    (∃ (run after : List Char) (t : Token α), Lexeme after (c :: run) t) ↔
      isNumberStart c = true ∨ isNameStart c = true ∨ ∃ m : Mark, m.char = c := by
  constructor
  · rintro ⟨run, after, t, h⟩
    generalize htext : c :: run = text at h
    cases h with
    | number hrun => exact Or.inl (isNumberRun_cons.mp (htext ▸ hrun.holds)).1
    | name hrun => exact Or.inr (Or.inl (isName_cons.mp (htext ▸ hrun.holds)).1)
    | mark m => exact Or.inr (Or.inr ⟨m, (List.cons.inj htext).1.symm⟩)
  · rintro (h | h | ⟨m, rfl⟩)
    · rw [isNumberStart, Bool.or_eq_true, beq_iff_eq] at h
      rcases h with hdigit | rfl
      · have hdigits : C.Digits [c] := ⟨by simp, by simpa using hdigit⟩
        refine ⟨[], [], _, .number (.atEnd (isNumberRun_cons.mpr ⟨?_, .singleton c⟩))
          (.whole hdigits .none)⟩
        rw [isNumberStart, hdigit, Bool.true_or]
      · have hdigits : C.Digits ([] ++ ['0']) := ⟨by simp, by simp⟩
        refine ⟨['0'], [], _, .number (.atEnd (isNumberRun_cons.mpr ⟨rfl, ?_⟩))
          (.point hdigits .none)⟩
        exact List.isChain_pair.mpr (Or.inl rfl)
    · exact ⟨[], [], _, .name (.atEnd (isName_cons.mpr ⟨h, List.forall_mem_nil _⟩))⟩
    · exact ⟨[], [], _, .mark m⟩

/-- A text that is no blank at its beginning begins with a token or is refused there. -/
theorem exists_lexeme_or_refused {c : Char} (hblank : isBlank c = false) (cs : List Char) :
    (∃ (run after : List Char) (t : Token α), c :: cs = run ++ after ∧ Lexeme after run t) ∨
      ∃ problem, Refused α (c :: cs) problem := by
  by_cases hstart : isNumberStart c = true
  · have hrun := longest_numberRun cs hstart
    have htext := numberRun_append false (c :: cs)
    cases hread : Decimal.read (numberRun false (c :: cs)).1 with
    | some d =>
        exact Or.inl ⟨_, _, _, htext.symm, .number hrun (Decimal.denotes_of_read hread)⟩
    | none =>
        refine Or.inr ⟨.invalidNumber (String.ofList (numberRun false (c :: cs)).1), ?_⟩
        have hrefused : Refused α _ _ := .number hrun (Decimal.read_eq_none_iff.mp hread)
        rwa [htext] at hrefused
  by_cases hname : isNameStart c = true
  · have htext : c :: cs = (c :: (nameRun cs).1) ++ (nameRun cs).2 :=
      congrArg (c :: ·) List.takeWhile_append_dropWhile.symm
    exact Or.inl ⟨_, _, _, htext, .name (longest_nameRun cs hname)⟩
  by_cases hmark : ∃ m : Mark, m.char = c
  · obtain ⟨m, rfl⟩ := hmark
    exact Or.inl ⟨[m.char], cs, _, rfl, .mark m⟩
  · refine Or.inr ⟨_, .character hblank fun run after t h => ?_⟩
    rcases begins_iff.mp ⟨run, after, t, h⟩ with h | h | h
    · exact hstart h
    · exact hname h
    · exact hmark h

theorem Refused.scan {cs : List Char} {problem : FormulaProblem} (h : Refused α cs problem)
    (offset : Nat) : (scan offset cs : Except Located (List (Placed α))) =
      .error (problem, offset) := by
  cases h with
  | @character c cs hblank hnone =>
      have hbegins := begins_iff.not.mp fun ⟨run, after, t, ht⟩ => hnone run after t ht
      rw [not_or, not_or] at hbegins
      have hmark : Mark.ofChar? c = none := by
        rw [Mark.ofChar?, List.find?_eq_none]
        exact fun m _ hm => hbegins.2.2 ⟨m, by simpa using hm⟩
      rw [ExplicitOde.scan, hblank, if_neg Bool.false_ne_true, dif_neg hbegins.1,
        if_neg hbegins.2.1, hmark]
  | @number run after hrun hnone =>
      obtain ⟨c, cs, rfl⟩ := List.exists_cons_of_ne_nil hrun.holds.ne_nil
      have hstart := (isNumberRun_cons.mp hrun.holds).1
      have hgoes : GoesOn c c := Or.inl hstart
      have hblank := hgoes.not_isBlank
      rw [List.cons_append, ExplicitOde.scan, hblank, if_neg Bool.false_ne_true, dif_pos hstart]
      dsimp only
      rw [numberRun_of_longest hrun]
      dsimp only
      rw [Decimal.read_eq_none_iff.mpr hnone]

/-! ## Segments -/

/-- A token with its text and the blanks before it. -/
structure Segment (α : Type) where
  gap : List Char
  lexeme : List Char
  token : Token α

namespace Segment

/-- The text of some segments. -/
def spelled : List (Segment α) → List Char
  | [] => []
  | p :: ps => p.gap ++ (p.lexeme ++ spelled ps)

/-- The tokens of some segments, each with the length of what is before it. -/
def places (offset : Nat) : List (Segment α) → List (Placed α)
  | [] => []
  | p :: ps =>
    (p.token, offset + byteLength p.gap) ::
      places (offset + byteLength p.gap + byteLength p.lexeme) ps

/-- The segments are cut off a text that goes on with these characters. -/
inductive Cut (after : List Char) : List (Segment α) → Prop where
  | nil : Cut after []
  | cons {p : Segment α} {ps : List (Segment α)} (hgap : Blanks p.gap)
      (hlexeme : Lexeme (spelled ps ++ after) p.lexeme p.token) (hcut : Cut after ps) :
      Cut after (p :: ps)

variable {after after' : List Char} {ps ps' : List (Segment α)}

omit [Scalar α] in
/-- The text of segments begins with a blank, or as that of the first token. -/
theorem head?_spelled_cons (p : Segment α) (hlexeme : p.lexeme ≠ []) (cs : List Char) :
    (spelled (p :: ps) ++ cs).head? = (p.gap ++ p.lexeme).head? := by
  rw [spelled, ← List.append_assoc, List.append_assoc,
    List.head?_append_of_ne_nil _ (List.append_ne_nil_of_right_ne_nil p.gap hlexeme)]

omit [Scalar α] in
theorem byteLength_spelled_cons (p : Segment α) :
    byteLength (spelled (p :: ps)) =
      byteLength p.gap + (byteLength p.lexeme + byteLength (spelled ps)) := by
  rw [spelled, byteLength_append, byteLength_append]

/-! ## Scanning -/

/-- Blanks are passed over. -/
theorem scan_blanks {gap : List Char} (hgap : Blanks gap) (offset : Nat) (cs : List Char) :
    (scan offset (gap ++ cs) : Except Located (List (Placed α))) =
      scan (offset + byteLength gap) cs := by
  induction gap generalizing offset with
  | nil => rfl
  | cons c gap ih =>
      rw [List.cons_append, scan, if_pos (hgap c List.mem_cons_self),
        ih (fun d hd => hgap d (List.mem_cons_of_mem c hd)), byteLength_cons, Nat.add_assoc]

/-- **The scanner takes the segments off the text, one after the other.** -/
theorem Cut.scan (h : Cut after ps) (offset : Nat) :
    scan offset (spelled ps ++ after) =
      (scan (offset + byteLength (spelled ps)) after).map (places offset ps ++ ·) := by
  induction h generalizing offset with
  | nil =>
      rw [show offset + byteLength (spelled ([] : List (Segment α))) = offset from rfl, spelled,
        List.nil_append]
      cases ExplicitOde.scan (α := α) offset after <;> rfl
  | @cons p ps hgap hlexeme hcut ih =>
      rw [spelled, List.append_assoc, List.append_assoc, scan_blanks hgap, hlexeme.scan, ih,
        ← spelled, byteLength_spelled_cons, ← Nat.add_assoc, ← Nat.add_assoc]
      cases ExplicitOde.scan (α := α) _ after <;> rfl

/-- A text is cut into segments up to its end, or up to where it is refused. -/
theorem exists_cut (cs : List Char) :
    ∃ (ps : List (Segment α)) (gap after : List Char), cs = spelled ps ++ (gap ++ after) ∧
      Cut (gap ++ after) ps ∧ Blanks gap ∧ (after = [] ∨ ∃ problem, Refused α after problem) := by
  -- each segment makes the text shorter
  induction hlength : cs.length using Nat.strong_induction_on generalizing cs with
  | _ n ih =>
      have hgap : Blanks (cs.takeWhile isBlank) := fun c hc => List.mem_takeWhile_imp hc
      have htext := (List.takeWhile_append_dropWhile (p := isBlank) (l := cs)).symm
      cases hdrop : cs.dropWhile isBlank with
      | nil => exact ⟨[], _, [], by rw [← hdrop]; exact htext, .nil, hgap, Or.inl rfl⟩
      | cons c tail =>
          rw [hdrop] at htext
          have hblank : isBlank c = false := by
            have hnot := List.head?_dropWhile_not isBlank cs
            rwa [hdrop] at hnot
          rcases exists_lexeme_or_refused (α := α) hblank tail with
            ⟨run, after, t, hrun, hlexeme⟩ | hrefused
          · have hshorter : after.length < n := by
              have hpos := List.length_pos_iff.mpr hlexeme.ne_nil
              rw [← hlength, htext, hrun]
              simp only [List.length_append]
              omega
            obtain ⟨ps, gap, after', hafter, hcut, hblanks, hend⟩ := ih _ hshorter after rfl
            refine ⟨⟨_, run, t⟩ :: ps, gap, after', ?_, .cons hgap (hafter ▸ hlexeme) hcut,
              hblanks, hend⟩
            rw [spelled, List.append_assoc, List.append_assoc, ← hafter, ← hrun]
            exact htext
          · exact ⟨[], _, c :: tail, htext, .nil, hgap, Or.inr hrefused⟩

/-! ## More blanks -/

/-- The same token, with other blanks before it where there were blanks, and with any number of
them where there were none. -/
structure Spaced (p p' : Segment α) : Prop where
  gap : Blanks p'.gap
  kept : p'.gap = [] → p.gap = []
  lexeme : p'.lexeme = p.lexeme
  token : p'.token = p.token

/-- **Other blanks between the tokens change none of them.** -/
theorem Cut.respaced (hcut : Cut after ps) (hspaced : List.Forall₂ Spaced ps ps')
    (hafter : ∀ c ∈ after'.head?, isBlank c = true ∨ c ∈ after.head?) : Cut after' ps' := by
  induction hspaced with
  | nil => exact .nil
  | @cons p p' ps ps' hp hps ih =>
      obtain ⟨_, hlexeme, hcut⟩ : Blanks p.gap ∧
          Lexeme (spelled ps ++ after) p.lexeme p.token ∧ Cut after ps := by
        cases hcut with
        | cons hgap hlexeme hcut => exact ⟨hgap, hlexeme, hcut⟩
      refine .cons hp.gap ?_ (ih hcut)
      rw [hp.lexeme, hp.token]
      refine hlexeme.follow ?_
      -- behind the token the text begins with a blank, or as before
      cases hps with
      | nil => exact hafter
      | @cons q q' qs qs' hq hqs =>
          cases hcut with
          | cons hgap hnext _ =>
              intro c hc
              rw [head?_spelled_cons q' (hq.lexeme ▸ hnext.ne_nil)] at hc
              rw [head?_spelled_cons q hnext.ne_nil]
              cases hempty : q'.gap with
              | nil =>
                  rw [hempty, hq.lexeme] at hc
                  rw [hq.kept hempty]
                  exact Or.inr hc
              | cons d gap =>
                  rw [hempty] at hc
                  obtain rfl := Option.some.inj hc
                  exact Or.inl (hq.gap d (hempty ▸ List.mem_cons_self))

omit [Scalar α] in
theorem tokens_respaced (hspaced : List.Forall₂ Spaced ps ps') (offset offset' : Nat) :
    (places offset' ps').map Prod.fst = (places offset ps).map Prod.fst := by
  induction hspaced generalizing offset offset' with
  | nil => rfl
  | cons hp hps ih => rw [places, places, List.map_cons, List.map_cons, hp.token, ih]

theorem spaced_refl (hcut : Cut after ps) : List.Forall₂ Spaced ps ps := by
  induction hcut with
  | nil => exact .nil
  | cons hgap _ _ ih => exact .cons ⟨hgap, id, rfl, rfl⟩ ih

end Segment

end

/-! ## Whole texts -/

section

open Segment

variable [Scalar α] {ps ps' : List (Segment α)} {gap after : List Char}

theorem tokenize_of_cut (hcut : Cut gap ps) (hgap : Blanks gap) :
    tokenize (String.ofList (spelled ps ++ gap)) = .ok (places 0 ps) := by
  have hrest := (scan_eq_nil_iff (α := α) (0 + byteLength (spelled ps))).mpr hgap
  rw [tokenize, String.toList_ofList, hcut.scan, hrest]
  exact congrArg Except.ok (List.append_nil _)

theorem tokenize_of_refused {problem : FormulaProblem} (hcut : Cut (gap ++ after) ps)
    (hgap : Blanks gap) (hrefused : Refused α after problem) :
    (tokenize (String.ofList (spelled ps ++ (gap ++ after))) :
      Except FormulaError (List (Placed α))) =
      .error ⟨String.ofList (spelled ps ++ (gap ++ after)), byteLength (spelled ps ++ gap),
        problem⟩ := by
  rw [tokenize, String.toList_ofList, hcut.scan, scan_blanks hgap, hrefused.scan,
    byteLength_append, Nat.zero_add]
  rfl

/-- The tokens of a text are those of a cut of all of it. -/
theorem exists_cut_of_tokenize {text : String} {placed : List (Placed α)}
    (h : tokenize text = .ok placed) : ∃ ps gap, text.toList = spelled ps ++ gap ∧ Cut gap ps ∧
      Blanks gap ∧ placed = places 0 ps := by
  obtain ⟨ps, gap, after, htext, hcut, hgap, hend⟩ := exists_cut (α := α) text.toList
  have hofList := congrArg String.ofList htext
  rw [String.ofList_toList] at hofList
  rcases hend with rfl | ⟨problem, hrefused⟩
  · rw [List.append_nil] at htext hcut hofList
    rw [hofList, tokenize_of_cut hcut hgap] at h
    exact ⟨ps, gap, htext, hcut, hgap, (Except.ok.inj h).symm⟩
  · rw [hofList, tokenize_of_refused hcut hgap hrefused] at h
    cases h

/-- What is before the place of a refusal is cut alone as it is in the whole text. -/
theorem Segment.Cut.before (hcut : Cut (gap ++ after) ps) (hgap : Blanks gap) : Cut gap ps := by
  refine hcut.respaced (spaced_refl hcut) fun c hc => Or.inl (hgap c ?_)
  exact List.mem_of_mem_head? hc

omit [Scalar α] in
/-- The tokens of segments begin where characters of their text do. -/
theorem isValid_of_mem_places {before : List Char} (offset : Nat)
    (h : offset ∈ (places (byteLength before) ps).map Prod.snd) (after : List Char) :
    (⟨offset⟩ : String.Pos.Raw).IsValid (String.ofList (before ++ (spelled ps ++ after))) := by
  induction ps generalizing before with
  | nil => exact absurd h List.not_mem_nil
  | cons p ps ih =>
      rw [places, List.map_cons, ← byteLength_append, ← byteLength_append] at h
      rcases List.mem_cons.mp h with rfl | h
      · rw [String.Pos.Raw.isValid_iff_exists_append]
        refine ⟨String.ofList (before ++ p.gap),
          String.ofList (p.lexeme ++ spelled ps ++ after), ?_, ?_⟩
        · rw [← String.ofList_append, spelled]
          simp only [List.append_assoc]
        · rw [String.Pos.Raw.ext_iff, String.byteIdx_rawEndPos, ← byteLength_toList,
            String.toList_ofList]
      · have htail := ih h
        rw [spelled]
        simpa only [List.append_assoc] using htail

/-- **A text is cut into tokens that are each as long as possible, and nothing of it is lost.** It
has the tokens of segments that make it up, but for blanks behind the last. Each begins where a
character does, behind the one before. With other blanks between the segments the tokens stay as
they are. A text without such segments is refused at a place behind some of them, which are the
tokens of what is before that place, and there no token begins, or a number that is none. -/
theorem tokenize_segments (text : String) :
    (∀ placed : List (Placed α), tokenize text = .ok placed ↔
      ∃ ps gap, text.toList = spelled ps ++ gap ∧ Cut gap ps ∧ Blanks gap ∧
        placed = places 0 ps) ∧
    (∀ placed : List (Placed α), tokenize text = .ok placed →
      (placed.map Prod.snd).Pairwise (· < ·) ∧
        ∀ offset ∈ placed.map Prod.snd, (⟨offset⟩ : String.Pos.Raw).IsValid text) ∧
    (∀ (ps ps' : List (Segment α)) (gap gap' : List Char), text.toList = spelled ps ++ gap →
      Cut gap ps → Blanks gap → List.Forall₂ Spaced ps ps' → Blanks gap' →
        tokenize (String.ofList (spelled ps' ++ gap')) = .ok (places 0 ps') ∧
          (places 0 ps').map Prod.fst = (places 0 ps).map Prod.fst) ∧
    ∀ e, (tokenize text : Except FormulaError (List (Placed α))) = .error e ↔
      ∃ (ps : List (Segment α)) (gap after : List Char),
        text.toList = spelled ps ++ (gap ++ after) ∧ Cut (gap ++ after) ps ∧ Blanks gap ∧
        Refused α after e.problem ∧ e.source = text ∧
        e.position = byteLength (spelled ps ++ gap) ∧
        tokenize (String.ofList (spelled ps ++ gap)) = .ok (places 0 ps) := by
  obtain ⟨ps, gap, after, htext, hcut, hgap, hend⟩ := exists_cut (α := α) text.toList
  have hofList : ∀ cs, text.toList = cs → text = String.ofList cs := by
    rintro cs rfl
    exact String.ofList_toList.symm
  -- one cut decides whether there are tokens, and says which
  have hok : ∀ placed : List (Placed α), tokenize text = .ok placed ↔
      ∃ ps gap, text.toList = spelled ps ++ gap ∧ Cut gap ps ∧ Blanks gap ∧
        placed = places 0 ps := by
    refine fun placed => ⟨exists_cut_of_tokenize, ?_⟩
    rintro ⟨ps, gap, htext, hcut, hgap, rfl⟩
    rw [hofList _ htext]
    exact tokenize_of_cut hcut hgap
  refine ⟨hok, fun placed h => ⟨(offsets_of_tokenize h).increasing, fun offset hoffset => ?_⟩,
    fun ps ps' gap gap' _ hcut hgap hspaced hgap' => ⟨?_, tokens_respaced hspaced 0 0⟩,
    fun e => ⟨fun h => ?_, ?_⟩⟩
  · obtain ⟨ps, gap, htext, _, _, rfl⟩ := (hok placed).mp h
    have hvalid : (⟨offset⟩ : String.Pos.Raw).IsValid
        (String.ofList ([] ++ (spelled ps ++ gap))) := isValid_of_mem_places offset hoffset gap
    rwa [List.nil_append, ← hofList _ htext] at hvalid
  · refine tokenize_of_cut (hcut.respaced hspaced fun c hc => Or.inl (hgap' c ?_)) hgap'
    exact List.mem_of_mem_head? hc
  · rcases hend with rfl | ⟨problem, hrefused⟩
    · rw [List.append_nil] at htext hcut
      rw [hofList _ htext, tokenize_of_cut hcut hgap] at h
      cases h
    · have herror := h
      rw [hofList _ htext, tokenize_of_refused hcut hgap hrefused] at herror
      obtain rfl := Except.error.inj herror
      exact ⟨ps, gap, after, htext, hcut, hgap, hrefused, (hofList _ htext).symm, rfl,
        tokenize_of_cut (hcut.before hgap) hgap⟩
  · rintro ⟨ps, gap, after, htext, hcut, hgap, hrefused, hsource, hposition, _⟩
    rw [hofList _ htext, tokenize_of_refused hcut hgap hrefused, ← hofList _ htext]
    exact congrArg Except.error (by cases e; simp_all)

end

/-- A name is subtracted from a number, with something before the sign and the name. -/
def subtraction (gap : List Char) : List (Segment Float) :=
  [⟨[], ['2', 'e', '3'], .number (Scalar.ofDecimal ⟨2, 3⟩)⟩, ⟨gap, ['-'], .mark .minus⟩,
    ⟨gap, ['x'], .name "x"⟩]

/-- The minus sign belongs to no number behind `2e3`, whether it is written next to it or not. -/
theorem tokenize_segments_spaced :
    (tokenize "2e3-x" : Except FormulaError (List (Placed Float))) =
      .ok [(.number (Scalar.ofDecimal ⟨2, 3⟩), 0), (.mark .minus, 3), (.name "x", 4)] ∧
    (tokenize "2e3 - x" : Except FormulaError (List (Placed Float))) =
      .ok [(.number (Scalar.ofDecimal ⟨2, 3⟩), 0), (.mark .minus, 4), (.name "x", 6)] := by
  have hnumber : Lexeme (α := Float) ['-', 'x'] ['2', 'e', '3']
      (.number (Scalar.ofDecimal ⟨2, 3⟩)) := by
    have hexponent : Decimal.DenotesExponent ('e' :: ([] ++ ['3'])) 3 :=
      .positive (by simp) (by simp) (by simp [C.Digits])
    have hdigits : C.Digits ['2'] := by simp [C.Digits]
    refine .number (.of_head extends_isNumberRun (isNumberRun_cons.mpr ⟨rfl, ?_⟩) ?_)
      (.whole hdigits hexponent)
    · simp [GoesOn, isNumberStart]
    · rintro c hc h
      obtain rfl := Option.some.inj hc
      have hchain : List.IsChain GoesOn (['2', 'e', '3'] ++ ['-']) := h.goesOn
      have hgoes := (List.isChain_append.mp hchain).2.2 '3' rfl '-' rfl
      exact absurd hgoes (by simp [GoesOn, isNumberStart])
  have hname : Lexeme (α := Float) [] ['x'] (.name "x") :=
    .name (.atEnd (isName_cons.mpr ⟨rfl, List.forall_mem_nil _⟩))
  have hnil : Blanks [] := List.forall_mem_nil _
  have hblank : Blanks [' '] := List.forall_mem_singleton.mpr rfl
  have hcut : Segment.Cut [] (subtraction []) :=
    .cons hnil hnumber (.cons hnil (.mark .minus) (.cons hnil hname .nil))
  have hspaced : List.Forall₂ Segment.Spaced (subtraction []) (subtraction [' ']) :=
    .cons ⟨hnil, fun _ => rfl, rfl, rfl⟩ (.cons ⟨hblank, fun _ => rfl, rfl, rfl⟩
      (.cons ⟨hblank, fun _ => rfl, rfl, rfl⟩ .nil))
  obtain ⟨htokens, _, hrespaced, _⟩ := tokenize_segments (α := Float) "2e3-x"
  exact ⟨(htokens _).mpr ⟨subtraction [], [], rfl, hcut, hnil, rfl⟩,
    (hrespaced (subtraction []) (subtraction [' ']) [] [] rfl hcut hnil hspaced hnil).1⟩

end ExplicitOde
