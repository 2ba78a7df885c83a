import ExplicitOde.Text.Identifier
import Mathlib

/-!
# Tokens of C

How a C compiler cuts a text into tokens: words, numbers and signs, each as long as possible, with
blanks between them. A number runs over digits, letters, points and the sign of an exponent, so that
`1e+1` is one token and `1+1` are three; `--`, `/*` and `->` are never read as two signs.

Texts with comments, strings, characters or directives are not read at all.
-/

namespace ExplicitOde

namespace C

/-- A token. The signs with names are those that expressions and statements below are made of. -/
inductive Token where
  | word (text : String)
  | number (text : String)
  | opening | closing
  | openingBracket | closingBracket
  | openingBrace | closingBrace
  | plus | minus | times | slash
  | assign | unequal
  | question | colon | comma | semicolon
  /-- Any other sign. -/
  | other
  deriving DecidableEq

/-- All signs, longer ones before those that they begin with. Comments begin where there is no
token. -/
def signs : List (List Char × Option Token) :=
  [(['%', ':', '%', ':'], some .other), (['.', '.', '.'], some .other),
    (['<', '<', '='], some .other), (['>', '>', '='], some .other), (['/', '/'], none),
    (['/', '*'], none), (['-', '>'], some .other), (['+', '+'], some .other),
    (['-', '-'], some .other), (['<', '<'], some .other), (['>', '>'], some .other),
    (['<', '='], some .other), (['>', '='], some .other), (['=', '='], some .other),
    (['!', '='], some .unequal), (['&', '&'], some .other), (['|', '|'], some .other),
    (['*', '='], some .other), (['/', '='], some .other), (['%', '='], some .other),
    (['+', '='], some .other), (['-', '='], some .other), (['&', '='], some .other),
    (['^', '='], some .other), (['|', '='], some .other), (['#', '#'], some .other),
    (['<', ':'], some .other), ([':', '>'], some .other), (['<', '%'], some .other),
    (['%', '>'], some .other), (['%', ':'], some .other), (['['], some .openingBracket),
    ([']'], some .closingBracket), (['('], some .opening), ([')'], some .closing),
    (['\x7b'], some .openingBrace), (['\x7d'], some .closingBrace), (['.'], some .other),
    (['&'], some .other), (['*'], some .times), (['+'], some .plus), (['-'], some .minus),
    (['~'], some .other), (['!'], some .other), (['/'], some .slash), (['%'], some .other),
    (['<'], some .other), (['>'], some .other), (['^'], some .other), (['|'], some .other),
    (['?'], some .question), ([':'], some .colon), ([';'], some .semicolon),
    (['='], some .assign), ([','], some .comma), (['#'], some .other)]

/-- Blanks between tokens. -/
def isSpace (c : Char) : Bool :=
  c == ' ' || c == '\n' || c == '\t'

/-- A number goes on with letters, digits, underscores and points. -/
def isNumberRest (c : Char) : Bool :=
  isNameRest c || c == '.'

/-- The letter before the sign of an exponent. -/
def isExponentMark (c : Char) : Bool :=
  c == 'e' || c == 'E' || c == 'p' || c == 'P'

/-- What a number goes on with, and what follows. A sign belongs to it directly after the letter of
an exponent, as `afterE` tells. -/
def numberRun (afterE : Bool) : List Char → List Char × List Char
  | [] => ([], [])
  | c :: cs =>
    if isNumberRest c || (afterE && (c == '+' || c == '-')) then
      let (run, rest) := numberRun (isExponentMark c) cs
      (c :: run, rest)
    else ([], c :: cs)

theorem numberRun_rest_le (afterE : Bool) (cs : List Char) :
    (numberRun afterE cs).2.length ≤ cs.length := by
  fun_induction numberRun afterE cs <;> simp_all
  omega

/-- The longest sign at the start. -/
def readSign (cs : List Char) : Option (Token × List Char) :=
  match signs.find? fun sign => sign.1.isPrefixOf cs with
  | some (text, some t) => some (t, cs.drop text.length)
  | _ => none

/-- The token at the start, and what follows. -/
def readToken : List Char → Option (Token × List Char)
  | [] => none
  | c :: cs =>
    if isNameStart c then
      some (.word (String.ofList (c :: cs.takeWhile isNameRest)), cs.dropWhile isNameRest)
    else if c.isDigit || (c == '.' && cs.head?.any Char.isDigit) then
      some (.number (String.ofList (c :: (numberRun false cs).1)), (numberRun false cs).2)
    else readSign (c :: cs)

theorem readSign_rest_lt {cs rest : List Char} {t : Token} (h : readSign cs = some (t, rest)) :
    rest.length < cs.length := by
  have hsome : ∀ s ∈ signs, 0 < s.1.length := by decide
  unfold readSign at h
  split at h
  · rename_i text t' hfind
    injection h with h
    injection h with _ h
    have hpos := hsome _ (List.mem_of_find?_eq_some hfind)
    have hprefix := List.find?_some hfind
    have hle := (List.isPrefixOf_iff_prefix.mp hprefix).length_le
    rw [← h, List.length_drop]
    dsimp only at hpos hle
    omega
  · injection h

theorem readToken_rest_lt {cs rest : List Char} {t : Token} (h : readToken cs = some (t, rest)) :
    rest.length < cs.length := by
  cases cs with
  | nil => injection h
  | cons c cs =>
      rw [readToken] at h
      split at h
      · injection h with h
        injection h with _ h
        rw [← h]
        exact Nat.lt_succ_of_le (List.dropWhile_suffix isNameRest).length_le
      · split at h
        · injection h with h
          injection h with _ h
          rw [← h]
          exact Nat.lt_succ_of_le (numberRun_rest_le false cs)
        · exact readSign_rest_lt h

/-- The tokens of a text. -/
def lex : List Char → Option (List Token)
  | [] => some []
  | c :: cs =>
    if isSpace c then lex cs
    else
      match h : readToken (c :: cs) with
      | none => none
      | some (t, rest) =>
        have := readToken_rest_lt h
        (lex rest).map (t :: ·)
termination_by cs => cs.length
decreasing_by
  · exact Nat.lt_succ_self cs.length
  · exact readToken_rest_lt h

/-! ## Reading what begins with a known token -/

theorem lex_space {c : Char} (h : isSpace c = true) (rest : List Char) :
    lex (c :: rest) = lex rest := by
  rw [lex, if_pos h]

theorem lex_of_readToken {c : Char} {cs rest : List Char} {t : Token} (hspace : isSpace c = false)
    (h : readToken (c :: cs) = some (t, rest)) : lex (c :: cs) = (lex rest).map (t :: ·) := by
  rw [lex, if_neg (by rw [hspace]; exact Bool.false_ne_true)]
  split
  · rename_i hnone
    rw [h] at hnone
    injection hnone
  · rename_i t' rest' hsome
    rw [h] at hsome
    injection hsome with hsome
    injection hsome with ht hrest
    rw [ht, hrest]

/-- No word and no number goes on here. -/
def Ends (rest : List Char) : Prop := ∀ c ∈ rest.head?, isNumberRest c = false

theorem ends_cons {c : Char} {rest : List Char} (h : isNumberRest c = false) :
    Ends (c :: rest) := by
  intro d hd
  rw [List.head?_cons, Option.mem_some_iff] at hd
  exact hd ▸ h

/-- A run of characters of one class ends before a character that is not of the class. -/
theorem takeWhile_append_end {p : Char → Bool} {rest : List Char}
    (hrest : ∀ c ∈ rest.head?, p c = false) (cs : List Char) :
    (cs ++ rest).takeWhile p = cs.takeWhile p ∧
      (cs ++ rest).dropWhile p = cs.dropWhile p ++ rest := by
  induction cs with
  | nil =>
      cases rest with
      | nil => exact ⟨rfl, rfl⟩
      | cons c rest =>
          have hc := Bool.eq_false_iff.mp (hrest c rfl)
          exact ⟨List.takeWhile_cons_of_neg hc, List.dropWhile_cons_of_neg hc⟩
  | cons c cs ih => by_cases hc : p c = true <;> simp [hc, ih]

/-- A whole run of characters of one class. -/
theorem takeWhile_run {p : Char → Bool} {run rest : List Char} (hrun : ∀ c ∈ run, p c = true)
    (hrest : ∀ c ∈ rest.head?, p c = false) :
    (run ++ rest).takeWhile p = run ∧ (run ++ rest).dropWhile p = rest := by
  obtain ⟨htake, hdrop⟩ := takeWhile_append_end hrest run
  rw [htake, hdrop, List.takeWhile_eq_self_iff.mpr hrun, List.dropWhile_eq_nil_iff.mpr hrun]
  exact ⟨rfl, rfl⟩

theorem Ends.takeWhile {rest : List Char} (h : Ends rest) (w : List Char)
    (hw : ∀ c ∈ w, isNameRest c = true) :
    (w ++ rest).takeWhile isNameRest = w ∧ (w ++ rest).dropWhile isNameRest = rest := by
  refine takeWhile_run hw fun c hc => ?_
  have hend := h c hc
  rw [isNumberRest, Bool.or_eq_false_iff] at hend
  exact hend.1

theorem not_isSpace_of_isNameRest {c : Char} (h : isNameRest c = true) : isSpace c = false := by
  by_contra hc
  rw [Bool.not_eq_false, isSpace, Bool.or_eq_true, Bool.or_eq_true, beq_iff_eq, beq_iff_eq,
    beq_iff_eq] at hc
  rcases hc with (rfl | rfl) | rfl <;> exact absurd h (by decide)

theorem isNameRest_of_isNameStart {c : Char} (h : isNameStart c = true) : isNameRest c = true := by
  unfold isNameStart at h
  unfold isNameRest Char.isAlphanum
  rw [Bool.or_eq_true] at h
  rcases h with h | h
  · rw [h, Bool.true_or, Bool.true_or]
  · rw [h, Bool.or_true]

/-- All characters of an identifier are those that it goes on with. -/
theorem isNameRest_of_isIdentifier {w : String} (h : isIdentifier w = true) :
    ∀ c ∈ w.toList, isNameRest c = true := by
  unfold isIdentifier at h
  split at h
  · exact absurd h Bool.false_ne_true
  · rename_i c cs hcs
    rw [Bool.and_eq_true, List.all_eq_true] at h
    rw [hcs]
    exact List.forall_mem_cons.mpr ⟨isNameRest_of_isNameStart h.1, h.2⟩

/-- An identifier goes on as an identifier. -/
theorem isIdentifier_append {w ending : String} (h : isIdentifier w = true)
    (hending : ∀ c ∈ ending.toList, isNameRest c = true) : isIdentifier (w ++ ending) = true := by
  unfold isIdentifier at h ⊢
  rw [String.toList_append]
  cases hcs : w.toList with
  | nil =>
      rw [hcs] at h
      exact absurd h Bool.false_ne_true
  | cons c cs =>
      rw [hcs, Bool.and_eq_true, List.all_eq_true] at h
      rw [List.cons_append, Bool.and_eq_true, List.all_eq_true]
      exact ⟨h.1, List.forall_mem_append.mpr ⟨h.2, hending⟩⟩

/-- A word ends where no name goes on. -/
theorem lex_word {w : String} {rest : List Char} (hw : isIdentifier w = true) (hrest : Ends rest) :
    lex (w.toList ++ rest) = (lex rest).map (.word w :: ·) := by
  unfold isIdentifier at hw
  split at hw
  · exact absurd hw Bool.false_ne_true
  rename_i c cs hcs
  rw [Bool.and_eq_true, List.all_eq_true] at hw
  have hspace : isSpace c = false := not_isSpace_of_isNameRest (isNameRest_of_isNameStart hw.1)
  obtain ⟨htake, hdrop⟩ := hrest.takeWhile cs hw.2
  rw [hcs, List.cons_append]
  refine lex_of_readToken hspace ?_
  rw [readToken, if_pos hw.1, htake, hdrop, ← hcs, String.ofList_toList]

theorem not_isNameStart_of_isDigit {c : Char} (h : c.isDigit = true) : isNameStart c = false := by
  by_contra hc
  rw [Bool.not_eq_false] at hc
  simp only [isNameStart, Char.isDigit, Char.isAlpha, Char.isUpper, Char.isLower, Bool.or_eq_true,
    Bool.and_eq_true, decide_eq_true_eq, beq_iff_eq, ge_iff_le, UInt32.le_iff_toNat_le] at h hc
  rcases hc with (hc | hc) | rfl
  · have := h.2
    have := hc.1
    simp at *
    omega
  · simp at *
    omega
  · exact absurd h (by decide)

/-- The characters belong to a number, whatever follows; afterwards the number goes on as `afterE'`
tells. -/
def Runs (afterE : Bool) (cs : List Char) (afterE' : Bool) : Prop :=
  ∀ rest, numberRun afterE (cs ++ rest) =
    (cs ++ (numberRun afterE' rest).1, (numberRun afterE' rest).2)

theorem Runs.append {a b c : Bool} {cs ds : List Char} (h : Runs a cs b) (h' : Runs b ds c) :
    Runs a (cs ++ ds) c := by
  intro rest
  rw [List.append_assoc, h, h', List.append_assoc]

theorem runs_cons {c : Char} (h : isNumberRest c = true) (afterE : Bool) :
    Runs afterE [c] (isExponentMark c) := by
  intro rest
  rw [List.singleton_append, numberRun, h, Bool.true_or, if_pos rfl]
  rfl

theorem runs_minus : Runs true ['-'] false := fun _ => rfl

theorem isNumberRest_of_isDigit {c : Char} (h : c.isDigit = true) : isNumberRest c = true := by
  rw [isNumberRest, isNameRest, Char.isAlphanum, h, Bool.or_true, Bool.true_or, Bool.true_or]

theorem not_isExponentMark_of_isDigit {c : Char} (h : c.isDigit = true) :
    isExponentMark c = false := by
  by_contra hc
  rw [Bool.not_eq_false] at hc
  simp only [isExponentMark, Bool.or_eq_true, beq_iff_eq] at hc
  rcases hc with ((rfl | rfl) | rfl) | rfl <;> exact absurd h (by decide)

/-- A row of digits. -/
def Digits (ds : List Char) : Prop := ds ≠ [] ∧ ∀ c ∈ ds, c.isDigit = true

theorem Digits.runs {ds : List Char} (h : Digits ds) (afterE : Bool) : Runs afterE ds false := by
  obtain ⟨hne, hall⟩ := h
  induction ds generalizing afterE with
  | nil => exact absurd rfl hne
  | cons d ds ih =>
      have hd := hall d List.mem_cons_self
      have hone := runs_cons (isNumberRest_of_isDigit hd) afterE
      rw [not_isExponentMark_of_isDigit hd] at hone
      by_cases hds : ds = []
      · rw [hds]
        exact hone
      · exact hone.append (ih false hds fun c hc => hall c (List.mem_cons_of_mem d hc))

/-- A number ends where no number goes on. -/
theorem lex_number {c : Char} {cs rest : List Char} (hc : c.isDigit = true)
    (hruns : Runs false (c :: cs) false) (hrest : Ends rest) :
    lex (c :: cs ++ rest) = (lex rest).map (.number (String.ofList (c :: cs)) :: ·) := by
  have hnone : numberRun false rest = ([], rest) := by
    cases rest with
    | nil => rfl
    | cons d rest => rw [numberRun, hrest d rfl, Bool.false_and, Bool.or_false,
        if_neg Bool.false_ne_true]
  -- the first digit says that there is a number, the run is what it goes on with
  have hrun : numberRun false (cs ++ rest) = (cs, rest) := by
    have h := hruns rest
    rw [hnone, List.append_nil, List.cons_append, numberRun, isNumberRest_of_isDigit hc,
      Bool.true_or, if_pos rfl, not_isExponentMark_of_isDigit hc] at h
    injection h with h₁ h₂
    injection h₁ with _ h₁
    exact Prod.ext h₁ h₂
  have hspace : isSpace c = false := by
    refine not_isSpace_of_isNameRest ?_
    rw [isNameRest, Char.isAlphanum, hc, Bool.or_true, Bool.true_or]
  rw [List.cons_append]
  refine lex_of_readToken hspace ?_
  rw [readToken, not_isNameStart_of_isDigit hc, if_neg Bool.false_ne_true, hc, Bool.true_or,
    if_pos rfl, hrun]

/-- Signs that no other sign begins with. -/
def closedSigns : List (Char × Token) :=
  [('(', .opening), (')', .closing), ('[', .openingBracket), (']', .closingBracket),
    ('\x7b', .openingBrace), ('\x7d', .closingBrace), ('?', .question), (';', .semicolon),
    (',', .comma)]

theorem lex_closedSign {c : Char} {t : Token} (h : (c, t) ∈ closedSigns) (rest : List Char) :
    lex (c :: rest) = (lex rest).map (t :: ·) := by
  simp only [closedSigns, List.mem_cons, Prod.mk.injEq, List.not_mem_nil, or_false] at h
  rcases h with ⟨rfl, rfl⟩ | ⟨rfl, rfl⟩ | ⟨rfl, rfl⟩ | ⟨rfl, rfl⟩ | ⟨rfl, rfl⟩ | ⟨rfl, rfl⟩ |
    ⟨rfl, rfl⟩ | ⟨rfl, rfl⟩ | ⟨rfl, rfl⟩ <;> exact lex_of_readToken rfl rfl

theorem lex_unequal (rest : List Char) :
    lex ('!' :: '=' :: rest) = (lex rest).map (.unequal :: ·) :=
  lex_of_readToken rfl rfl

/-- Signs that are cut off before a name, a number, a parenthesis or a blank. -/
def openSigns : List (Char × Token) :=
  [('+', .plus), ('-', .minus), ('*', .times), ('/', .slash), ('=', .assign), (':', .colon)]

/-- No sign of two characters goes on with this one. -/
def Cuts (rest : List Char) : Prop :=
  ∃ c ∈ rest.head?, isNameRest c = true ∨ c = '(' ∨ c = ' '

theorem lex_openSign {c : Char} {t : Token} (h : (c, t) ∈ openSigns) {rest : List Char}
    (hrest : Cuts rest) : lex (c :: rest) = (lex rest).map (t :: ·) := by
  obtain ⟨d, hd, hcut⟩ := hrest
  cases rest with
  | nil => exact absurd hd (by simp)
  | cons e rest =>
      rw [List.head?_cons, Option.mem_some_iff] at hd
      subst hd
      -- the second characters of all longer signs
      have hseconds : ∀ d ∈ [':', '.', '<', '>', '=', '/', '*', '+', '-', '&', '|', '#', '%'],
          (d == e) = false := by
        intro d hd
        refine beq_false_of_ne fun hde => ?_
        subst hde
        rcases hcut with h | rfl | rfl
        · have hnone : ∀ d ∈ [':', '.', '<', '>', '=', '/', '*', '+', '-', '&', '|', '#', '%'],
              (!isNameRest d) = true := List.all_eq_true.mp rfl
          have hnot := hnone d hd
          rw [h] at hnot
          exact Bool.noConfusion hnot
        · exact absurd hd (by decide)
        · exact absurd hd (by decide)
      simp only [List.forall_mem_cons] at hseconds
      simp only [openSigns, List.mem_cons, Prod.mk.injEq, List.not_mem_nil, or_false] at h
      rcases h with ⟨rfl, rfl⟩ | ⟨rfl, rfl⟩ | ⟨rfl, rfl⟩ | ⟨rfl, rfl⟩ | ⟨rfl, rfl⟩ | ⟨rfl, rfl⟩ <;>
      · refine lex_of_readToken rfl ?_
        rw [readToken, if_neg (by decide), if_neg (by simp [Char.isDigit])]
        simp only [readSign, signs, List.find?_cons, List.isPrefixOf_cons_cons, hseconds]
        rfl

/-! ## Texts and their tokens -/

/-- The characters are cut into these tokens, if what comes after them is as `after` says. -/
def Spells (after : List Char → Prop) (cs : List Char) (ts : List Token) : Prop :=
  ∀ rest, after rest → lex (cs ++ rest) = (lex rest).map (ts ++ ·)

/-- Whatever comes after. -/
def Anything (_ : List Char) : Prop := True

variable {P Q : List Char → Prop} {cs ds : List Char} {ts us : List Token}

theorem Spells.imp (h : Spells P cs ts) (hPQ : ∀ rest, Q rest → P rest) : Spells Q cs ts :=
  fun rest hrest => h rest (hPQ rest hrest)

/-- The whole text. -/
theorem Spells.lex_eq (h : Spells P cs ts) (hend : P []) : lex cs = some ts := by
  have hlex := h [] hend
  rwa [List.append_nil, lex, Option.map_some, List.append_nil] at hlex

/-- Texts that can follow each other. -/
theorem Spells.append (h : Spells P cs ts) (h' : Spells Q ds us)
    (hafter : ∀ rest, Q rest → P (ds ++ rest)) : Spells Q (cs ++ ds) (ts ++ us) := by
  intro rest hrest
  rw [List.append_assoc, h _ (hafter rest hrest), h' rest hrest, Option.map_map]
  congr 1
  funext vs
  exact (List.append_assoc ts us vs).symm

theorem spells_nil : Spells Anything [] [] := by
  intro rest _
  cases hlex : lex rest with
  | none => rw [List.nil_append, hlex]; rfl
  | some ts => rw [List.nil_append, hlex]; rfl

theorem spells_space {c : Char} (h : isSpace c = true) : Spells Anything [c] [] := by
  intro rest hrest
  rw [List.singleton_append, lex_space h]
  exact spells_nil rest hrest

theorem spells_word {w : String} (h : isIdentifier w = true) : Spells Ends w.toList [.word w] :=
  fun _ hrest => lex_word h hrest

theorem spells_closedSign {c : Char} {t : Token} (h : (c, t) ∈ closedSigns) :
    Spells Anything [c] [t] :=
  fun rest _ => lex_closedSign h rest

theorem spells_openSign {c : Char} {t : Token} (h : (c, t) ∈ openSigns) : Spells Cuts [c] [t] :=
  fun _ hrest => lex_openSign h hrest

theorem spells_unequal : Spells Anything ['!', '='] [.unequal] := fun rest _ => lex_unequal rest

/-- A text in parentheses. -/
theorem Spells.parentheses (h : Spells Ends cs ts) :
    Spells Anything ('(' :: (cs ++ [')'])) (.opening :: (ts ++ [.closing])) := by
  have hclosing : Spells Anything [')'] [.closing] := spells_closedSign (by decide)
  have hopening : Spells Anything ['('] [.opening] := spells_closedSign (by decide)
  exact hopening.append (h.append hclosing fun _ _ => ends_cons rfl) fun _ _ => trivial

/-- A text in brackets. -/
theorem Spells.brackets (h : Spells Ends cs ts) :
    Spells Anything ('[' :: (cs ++ [']'])) (.openingBracket :: (ts ++ [.closingBracket])) := by
  have hclosing : Spells Anything [']'] [.closingBracket] := spells_closedSign (by decide)
  have hopening : Spells Anything ['['] [.openingBracket] := spells_closedSign (by decide)
  exact hopening.append (h.append hclosing fun _ _ => ends_cons rfl) fun _ _ => trivial

end C

end ExplicitOde
