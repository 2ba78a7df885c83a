import ExplicitOde.Proofs.C.Syntax

/-!
# Lines of C

How a C compiler cuts a line into pieces: tokens and strings, with comments left out. A comment or a
string that goes on beyond the line is not read, and no token goes over a blank. So a text that is
cut into tokens is cut into the same tokens line by line: `textPieces_of_lex`.

Braces open and close parts of a text: `level` counts how many are open. **A text has as many open
braces as its tokens have**: `level_of_lex`.
-/

namespace ExplicitOde

namespace C

/-- A token, or a string in quotes. -/
inductive Piece where
  | token (t : Token)
  | quoted (text : String)
  deriving DecidableEq

/-- The rest of a string, as it is written, and what follows it. A backslash takes the next
character with it. -/
def readQuoted : List Char → Option (List Char × List Char)
  | [] => none
  | '"' :: rest => some ([], rest)
  | '\\' :: c :: rest => (readQuoted rest).map fun (s, after) => ('\\' :: c :: s, after)
  | c :: rest => (readQuoted rest).map fun (s, after) => (c :: s, after)

/-- What follows a comment. -/
def skipComment : List Char → Option (List Char)
  | [] => none
  | '*' :: '/' :: rest => some rest
  | _ :: rest => skipComment rest

/-- The piece at the start, if it is no comment, and what follows. -/
def readPiece : List Char → Option (Option Piece × List Char)
  | '"' :: rest => (readQuoted rest).map fun (s, after) => (some (.quoted (String.ofList s)), after)
  | '/' :: '*' :: rest => (skipComment rest).map fun after => (none, after)
  | cs => (readToken cs).map fun (t, after) => (some (.token t), after)

theorem readQuoted_rest_lt {cs s rest : List Char} (h : readQuoted cs = some (s, rest)) :
    rest.length < cs.length := by
  fun_induction readQuoted cs generalizing s with
  | case1 => exact nomatch h
  | case2 rest' =>
      obtain ⟨_, rfl⟩ := Prod.mk.inj (Option.some.inj h)
      exact Nat.lt_succ_self _
  | case3 c rest' ih =>
      obtain ⟨⟨s', after⟩, hread, heq⟩ := Option.map_eq_some_iff.mp h
      obtain ⟨_, rfl⟩ := Prod.mk.inj heq
      exact Nat.lt_succ_of_lt (Nat.lt_succ_of_lt (ih hread))
  | case4 c rest' _ _ ih =>
      obtain ⟨⟨s', after⟩, hread, heq⟩ := Option.map_eq_some_iff.mp h
      obtain ⟨_, rfl⟩ := Prod.mk.inj heq
      exact Nat.lt_succ_of_lt (ih hread)

theorem skipComment_rest_lt {cs rest : List Char} (h : skipComment cs = some rest) :
    rest.length < cs.length := by
  fun_induction skipComment cs with
  | case1 => exact nomatch h
  | case2 rest' =>
      obtain rfl := Option.some.inj h
      exact Nat.lt_succ_of_lt (Nat.lt_succ_self _)
  | case3 c rest' _ ih => exact Nat.lt_succ_of_lt (ih h)

theorem readPiece_rest_lt {cs rest : List Char} {p : Option Piece}
    (h : readPiece cs = some (p, rest)) : rest.length < cs.length := by
  unfold readPiece at h
  split at h
  · obtain ⟨⟨s, after⟩, hread, heq⟩ := Option.map_eq_some_iff.mp h
    obtain ⟨_, rfl⟩ := Prod.mk.inj heq
    exact Nat.lt_succ_of_lt (readQuoted_rest_lt hread)
  · obtain ⟨after, hskip, heq⟩ := Option.map_eq_some_iff.mp h
    obtain ⟨_, rfl⟩ := Prod.mk.inj heq
    exact Nat.lt_succ_of_lt (Nat.lt_succ_of_lt (skipComment_rest_lt hskip))
  · obtain ⟨⟨t, after⟩, hread, heq⟩ := Option.map_eq_some_iff.mp h
    obtain ⟨_, rfl⟩ := Prod.mk.inj heq
    exact readToken_rest_lt hread

/-- The pieces of a line. -/
def linePieces : List Char → Option (List Piece)
  | [] => some []
  | c :: cs =>
    if isSpace c then linePieces cs
    else
      match h : readPiece (c :: cs) with
      | none => none
      | some (p, rest) =>
        have := readPiece_rest_lt h
        (linePieces rest).map (p.toList ++ ·)
termination_by cs => cs.length
decreasing_by
  · exact Nat.lt_succ_self cs.length
  · exact readPiece_rest_lt h

/-- The pieces of some lines. -/
def textPieces : List (List Char) → Option (List Piece)
  | [] => some []
  | line :: lines =>
    (linePieces line).bind fun ps => (textPieces lines).map (ps ++ ·)

/-! ## No token goes over a blank -/

/-- The text is empty, or begins with a blank. -/
def Spaced (tail : List Char) : Prop := ∀ c ∈ tail.head?, isSpace c = true

section

variable {cs tail : List Char}

theorem spaced_nil : Spaced [] := fun _ h => nomatch h

theorem spaced_cons {c : Char} (h : isSpace c = true) : Spaced (c :: cs) :=
  fun _ hd => Option.some.inj hd ▸ h

theorem eq_of_isSpace {c : Char} (h : isSpace c = true) : c = ' ' ∨ c = '\n' ∨ c = '\t' := by
  rwa [isSpace, Bool.or_eq_true, Bool.or_eq_true, beq_iff_eq, beq_iff_eq, beq_iff_eq, or_assoc] at h

theorem Spaced.ends (h : Spaced tail) : Ends tail := by
  intro c hc
  rcases eq_of_isSpace (h c hc) with rfl | rfl | rfl <;> rfl

theorem numberRun_append (h : Spaced tail) (afterE : Bool) :
    numberRun afterE (cs ++ tail) = ((numberRun afterE cs).1, (numberRun afterE cs).2 ++ tail) := by
  induction cs generalizing afterE with
  | nil =>
      cases tail with
      | nil => rfl
      | cons c tail => rcases eq_of_isSpace (h c rfl) with rfl | rfl | rfl <;> cases afterE <;> rfl
  | cons c cs ih =>
      rw [List.cons_append, numberRun, numberRun, ih]
      split <;> rfl

/-- A text without blanks is a beginning of the same texts, whatever follows a blank in them. -/
theorem isPrefixOf_append (h : Spaced tail) : ∀ {sign : List Char} (cs : List Char),
    (∀ c ∈ sign, isSpace c = false) → sign.isPrefixOf (cs ++ tail) = sign.isPrefixOf cs := by
  intro sign
  induction sign with
  | nil => exact fun _ _ => rfl
  | cons d sign ih =>
      intro cs hsign
      cases cs with
      | nil =>
          cases tail with
          | nil => rfl
          | cons c tail =>
              have hne : d ≠ c := by
                rintro rfl
                have hblank := h d rfl
                rw [hsign d List.mem_cons_self] at hblank
                exact Bool.noConfusion hblank
              simp [List.isPrefixOf, hne]
      | cons c cs =>
          rw [List.cons_append, List.isPrefixOf, List.isPrefixOf,
            ih cs fun e he => hsign e (List.mem_cons_of_mem d he)]

theorem readSign_append (h : Spaced tail) (cs : List Char) :
    readSign (cs ++ tail) = (readSign cs).map fun (t, rest) => (t, rest ++ tail) := by
  have hall : signs.all (fun sign => sign.1.all fun c => !isSpace c) = true := rfl
  have hsigns : ∀ sign ∈ signs, ∀ c ∈ sign.1, isSpace c = false := by
    simpa only [List.all_eq_true, Bool.not_eq_true'] using hall
  have hfind : (signs.find? fun sign => sign.1.isPrefixOf (cs ++ tail)) =
      signs.find? fun sign => sign.1.isPrefixOf cs :=
    List.find?_congr fun sign hsign => isPrefixOf_append h cs (hsigns sign hsign)
  rw [readSign, readSign, hfind]
  split
  · rename_i text t hsome
    have hsome := List.find?_some hsome
    have hprefix := List.isPrefixOf_iff_prefix.mp hsome
    rw [List.drop_append_of_le_length hprefix.length_le]
    rfl
  · rfl

/-- A token is the same where a blank or nothing follows the text. -/
theorem readToken_append (h : Spaced tail) (cs : List Char) (hne : cs ≠ []) :
    readToken (cs ++ tail) = (readToken cs).map fun (t, rest) => (t, rest ++ tail) := by
  obtain ⟨c, cs, rfl⟩ := List.exists_cons_of_ne_nil hne
  have hrest : ∀ d ∈ tail.head?, isNameRest d = false := fun d hd =>
    (Bool.or_eq_false_iff.mp (h.ends d hd)).1
  have hpoint : (cs ++ tail).head?.any Char.isDigit = cs.head?.any Char.isDigit := by
    cases cs with
    | cons d cs => rfl
    | nil =>
        cases tail with
        | nil => rfl
        | cons d tail => rcases eq_of_isSpace (h d rfl) with rfl | rfl | rfl <;> rfl
  have hword := takeWhile_append_end hrest cs
  rw [List.cons_append, readToken, readToken, hpoint, hword.1, hword.2, numberRun_append h]
  split
  · rfl
  · split
    · rfl
    · rw [← List.cons_append]
      exact readSign_append h (c :: cs)

/-- The first token, and the others behind it. -/
theorem lex_cons {c : Char} (hspace : isSpace c = false) (cs : List Char) :
    lex (c :: cs) = (readToken (c :: cs)).bind fun (t, rest) => (lex rest).map (t :: ·) := by
  cases hread : readToken (c :: cs) with
  | some p => exact lex_of_readToken hspace hread
  | none =>
      rw [lex, hspace, if_neg Bool.false_ne_true]
      split
      · rfl
      · rename_i hsome
        rw [hread] at hsome
        cases hsome

/-- **A text is cut into tokens apart from what follows a blank.** -/
theorem lex_append (h : Spaced tail) (cs : List Char) :
    lex (cs ++ tail) = (lex cs).bind fun ts => (lex tail).map (ts ++ ·) := by
  -- on the length, since a token takes several characters at once
  induction hlength : cs.length using Nat.strong_induction_on generalizing cs with
  | _ n ih =>
      cases cs with
      | nil =>
          rw [lex.eq_1, Option.bind_some]
          exact Option.map_id'.symm
      | cons c cs =>
          by_cases hspace : isSpace c = true
          · rw [List.cons_append, lex_space hspace, lex_space hspace]
            exact ih cs.length (by rw [← hlength, List.length_cons]; omega) cs rfl
          · have hspace := Bool.not_eq_true _ ▸ hspace
            have hread := readToken_append h (c :: cs) (List.cons_ne_nil c cs)
            rw [List.cons_append] at hread ⊢
            rw [lex_cons hspace, lex_cons hspace, hread]
            cases hfirst : readToken (c :: cs) with
            | none => rfl
            | some p =>
                obtain ⟨t, rest⟩ := p
                have hshorter : rest.length < n := hlength ▸ readToken_rest_lt hfirst
                rw [Option.map_some, Option.bind_some, Option.bind_some]
                dsimp only
                rw [ih _ hshorter rest rfl]
                cases lex rest <;> simp [Function.comp_def]

theorem spells_of_lex {ts : List Token} (h : lex cs = some ts) : Spells Spaced cs ts := by
  intro rest hrest
  rw [lex_append hrest, h, Option.bind_some]

/-- The tokens of a text that is cut into tokens. -/
def tokens (text : String) : List Token := (lex text.toList).getD []

theorem lex_tokens (text : String) (h : (lex text.toList).isSome = true) :
    lex text.toList = some (tokens text) := by
  obtain ⟨ts, hts⟩ := Option.isSome_iff_exists.mp h
  rw [tokens, hts, Option.getD_some]

/-! ## Lines of tokens -/

/-- A token is a piece. -/
theorem readPiece_of_readToken {rest : List Char} {t : Token}
    (h : readToken cs = some (t, rest)) : readPiece cs = some (some (.token t), rest) := by
  unfold readPiece
  split
  · exact nomatch h
  · exact nomatch h
  · rw [h]
    rfl

theorem linePieces_space {c : Char} (h : isSpace c = true) (cs : List Char) :
    linePieces (c :: cs) = linePieces cs := by
  rw [linePieces, if_pos h]

theorem linePieces_of_readPiece {c : Char} {rest : List Char} {p : Option Piece}
    (hspace : isSpace c = false) (h : readPiece (c :: cs) = some (p, rest)) :
    linePieces (c :: cs) = (linePieces rest).map (p.toList ++ ·) := by
  rw [linePieces, hspace, if_neg Bool.false_ne_true]
  split
  · rename_i hnone
    rw [h] at hnone
    exact nomatch hnone
  · rename_i hsome
    rw [h] at hsome
    obtain ⟨rfl, rfl⟩ := Prod.mk.inj (Option.some.inj hsome)
    rfl

/-- Tokens at the start of a line are pieces of it, if a blank or nothing follows. -/
theorem linePieces_append {ts : List Token} (h : Spaced tail) (hlex : lex cs = some ts) :
    linePieces (cs ++ tail) = (linePieces tail).map (ts.map .token ++ ·) := by
  induction hlength : cs.length using Nat.strong_induction_on generalizing cs ts with
  | _ n ih =>
      cases cs with
      | nil =>
          rw [lex] at hlex
          obtain rfl := Option.some.inj hlex
          exact Option.map_id'.symm
      | cons c cs =>
          by_cases hspace : isSpace c = true
          · rw [List.cons_append, linePieces_space hspace]
            rw [lex_space hspace] at hlex
            exact ih cs.length (by rw [← hlength, List.length_cons]; omega) hlex rfl
          · have hspace := Bool.not_eq_true _ ▸ hspace
            rw [lex_cons hspace] at hlex
            obtain ⟨⟨t, rest⟩, hfirst, hlex⟩ := Option.bind_eq_some_iff.mp hlex
            obtain ⟨us, hus, rfl⟩ := Option.map_eq_some_iff.mp hlex
            have hshorter : rest.length < n := hlength ▸ readToken_rest_lt hfirst
            have hread := readToken_append h (c :: cs) (List.cons_ne_nil c cs)
            rw [hfirst] at hread
            rw [List.cons_append] at hread ⊢
            rw [linePieces_of_readPiece hspace (readPiece_of_readToken hread),
              ih _ hshorter hus rfl, Option.map_map]
            rfl

theorem linePieces_of_lex {ts : List Token} (h : lex cs = some ts) :
    linePieces cs = some (ts.map .token) := by
  have hline := linePieces_append spaced_nil h
  rw [List.append_nil, linePieces, Option.map_some, List.append_nil] at hline
  exact hline

/-- **A text that is cut into tokens is cut into the same tokens line by line.** -/
theorem textPieces_of_lex {lines : List (List Char)} {ts : List Token}
    (h : lex (lines.flatMap (· ++ ['\n'])) = some ts) :
    textPieces lines = some (ts.map .token) := by
  induction lines generalizing ts with
  | nil =>
      rw [List.flatMap_nil, lex] at h
      obtain rfl := Option.some.inj h
      rfl
  | cons line lines ih =>
      rw [List.flatMap_cons, List.append_assoc, List.singleton_append,
        lex_append (spaced_cons rfl), lex_space rfl] at h
      obtain ⟨us, hus, h⟩ := Option.bind_eq_some_iff.mp h
      obtain ⟨vs, hvs, rfl⟩ := Option.map_eq_some_iff.mp h
      rw [textPieces, linePieces_of_lex hus, ih hvs, List.map_append]
      rfl

theorem textPieces_singleton (line : List Char) : textPieces [line] = linePieces line := by
  rw [textPieces, textPieces]
  cases linePieces line <;> simp

theorem textPieces_append (as bs : List (List Char)) :
    textPieces (as ++ bs) =
      (textPieces as).bind fun ps => (textPieces bs).map (ps ++ ·) := by
  induction as with
  | nil => exact Option.map_id'.symm
  | cons line lines ih =>
      rw [List.cons_append, textPieces, textPieces, ih]
      cases linePieces line with
      | none => rfl
      | some ps => cases textPieces lines <;> simp [Function.comp_def]

/-! ## Braces -/

/-- How many braces are open after some pieces, where so many are before; none if a brace is closed
that is not open. -/
def level : Nat → List Piece → Option Nat
  | depth, [] => some depth
  | depth, .token .openingBrace :: ps => level (depth + 1) ps
  | 0, .token .closingBrace :: _ => none
  | depth + 1, .token .closingBrace :: ps => level depth ps
  | depth, _ :: ps => level depth ps

/-- The same of the characters of a text without strings and comments. -/
def textLevel : Nat → List Char → Option Nat
  | depth, [] => some depth
  | depth, '\x7b' :: cs => textLevel (depth + 1) cs
  | 0, '\x7d' :: _ => none
  | depth + 1, '\x7d' :: cs => textLevel depth cs
  | depth, _ :: cs => textLevel depth cs

/-- The character is a brace. -/
def isBrace (c : Char) : Bool := c == '\x7b' || c == '\x7d'

theorem level_append (ps qs : List Piece) (depth : Nat) :
    level depth (ps ++ qs) = (level depth ps).bind fun d => level d qs := by
  fun_induction level depth ps <;> simp_all [level]

theorem textLevel_append (cs ds : List Char) (depth : Nat) :
    textLevel depth (cs ++ ds) = (textLevel depth cs).bind fun d => textLevel d ds := by
  fun_induction textLevel depth cs <;> simp_all [textLevel]

theorem textLevel_of_not_isBrace (h : ∀ c ∈ cs, isBrace c = false) (depth : Nat) :
    textLevel depth cs = some depth := by
  fun_induction textLevel depth cs with
  | case1 => rfl
  | case2 | case3 | case4 => exact Bool.noConfusion (h _ List.mem_cons_self)
  | case5 depth c cs _ _ _ ih => exact ih fun d hd => h d (List.mem_cons_of_mem c hd)

theorem not_isBrace {c : Char} {p : Char → Bool} (h : p c = true)
    (hbraces : p '\x7b' = false ∧ p '\x7d' = false) : isBrace c = false := by
  rw [isBrace, Bool.or_eq_false_iff]
  constructor
  · refine beq_false_of_ne ?_
    rintro rfl
    exact Bool.noConfusion (h.symm.trans hbraces.1)
  · refine beq_false_of_ne ?_
    rintro rfl
    exact Bool.noConfusion (h.symm.trans hbraces.2)

theorem level_of_ne {t : Token} (hopening : t ≠ .openingBrace) (hclosing : t ≠ .closingBrace)
    (depth : Nat) : level depth [.token t] = some depth := by
  unfold level
  split <;> simp_all [level]

/-- A number has no braces. -/
theorem not_isBrace_of_mem_numberRun (afterE : Bool) (cs : List Char) :
    cs = (numberRun afterE cs).1 ++ (numberRun afterE cs).2 ∧
      ∀ c ∈ (numberRun afterE cs).1, isBrace c = false := by
  fun_induction numberRun afterE cs with
  | case1 => exact ⟨rfl, List.forall_mem_nil _⟩
  | case2 afterE c cs h run rest hrun ih =>
      rw [hrun] at ih
      refine ⟨congrArg (c :: ·) ih.1, List.forall_mem_cons.mpr ⟨?_, ih.2⟩⟩
      refine not_isBrace (p := fun c => isNumberRest c || c == '+' || c == '-') ?_ ⟨rfl, rfl⟩
      rw [Bool.or_eq_true, Bool.and_eq_true] at h
      rw [Bool.or_assoc, Bool.or_eq_true]
      exact h.imp_right And.right
  | case3 afterE c cs h => exact ⟨rfl, List.forall_mem_nil _⟩

/-- A sign is a brace if its text is one. -/
theorem level_of_readSign {t : Token} {rest : List Char} (h : readSign cs = some (t, rest)) :
    ∃ text, cs = text ++ rest ∧ ∀ depth, textLevel depth text = level depth [.token t] := by
  -- two of the signs are the braces, and no other sign has a brace in its text
  have hsigns : ∀ sign ∈ signs, sign.2 = some .openingBrace ∧ sign.1 = ['\x7b'] ∨
      sign.2 = some .closingBrace ∧ sign.1 = ['\x7d'] ∨ sign.2 ≠ some .openingBrace ∧
        sign.2 ≠ some .closingBrace ∧ sign.1.all (fun c => !isBrace c) = true := by decide
  unfold readSign at h
  split at h
  · rename_i text t' hfind
    obtain ⟨rfl, rfl⟩ := Prod.mk.inj (Option.some.inj h)
    have hprefix := List.find?_some hfind
    obtain ⟨after, hafter⟩ := List.isPrefixOf_iff_prefix.mp hprefix
    refine ⟨text, by rw [← hafter, List.drop_left], fun depth => ?_⟩
    rcases hsigns _ (List.mem_of_find?_eq_some hfind) with
      ⟨ht, hc⟩ | ⟨ht, hc⟩ | ⟨hopening, hclosing, hnone⟩
    · obtain rfl := Option.some.inj ht
      obtain rfl : text = ['\x7b'] := hc
      rfl
    · obtain rfl := Option.some.inj ht
      obtain rfl : text = ['\x7d'] := hc
      cases depth <;> rfl
    · rw [level_of_ne (fun h => hopening (congrArg some h)) (fun h => hclosing (congrArg some h))]
      refine textLevel_of_not_isBrace (fun c hc => ?_) depth
      simpa using List.all_eq_true.mp hnone c hc
  · cases h

/-- A token is a brace if its text is one. -/
theorem level_of_readToken {t : Token} {rest : List Char} (h : readToken cs = some (t, rest)) :
    ∃ text, cs = text ++ rest ∧ ∀ depth, textLevel depth text = level depth [.token t] := by
  cases cs with
  | nil => cases h
  | cons c cs =>
      rw [readToken] at h
      split_ifs at h with hname hnumber
      · obtain ⟨rfl, rfl⟩ := Prod.mk.inj (Option.some.inj h)
        refine ⟨c :: cs.takeWhile isNameRest, congrArg (c :: ·)
          List.takeWhile_append_dropWhile.symm, fun depth => ?_⟩
        refine textLevel_of_not_isBrace (List.forall_mem_cons.mpr ⟨?_, fun d hd => ?_⟩) depth
        · exact not_isBrace (isNameRest_of_isNameStart hname) ⟨rfl, rfl⟩
        · exact not_isBrace (List.mem_takeWhile_imp hd) ⟨rfl, rfl⟩
      · obtain ⟨rfl, rfl⟩ := Prod.mk.inj (Option.some.inj h)
        obtain ⟨hsplit, hrun⟩ := not_isBrace_of_mem_numberRun false cs
        refine ⟨c :: (numberRun false cs).1, congrArg (c :: ·) hsplit, fun depth => ?_⟩
        refine textLevel_of_not_isBrace (List.forall_mem_cons.mpr ⟨?_, hrun⟩) depth
        refine not_isBrace (p := fun c => c.isDigit || c == '.') ?_ ⟨rfl, rfl⟩
        rw [Bool.or_eq_true, Bool.and_eq_true] at hnumber
        rw [Bool.or_eq_true]
        exact hnumber.imp_right And.left
      · exact level_of_readSign h

/-- **A text has as many open braces as its tokens.** -/
theorem level_of_lex {ts : List Token} (h : lex cs = some ts) (depth : Nat) :
    level depth (ts.map .token) = textLevel depth cs := by
  induction hlength : cs.length using Nat.strong_induction_on generalizing cs ts depth with
  | _ n ih =>
      cases cs with
      | nil =>
          rw [lex] at h
          obtain rfl := Option.some.inj h
          rfl
      | cons c cs =>
          by_cases hspace : isSpace c = true
          · rw [lex_space hspace] at h
            have hnone : textLevel depth [c] = some depth := by
              refine textLevel_of_not_isBrace (List.forall_mem_singleton.mpr ?_) depth
              exact not_isBrace hspace ⟨rfl, rfl⟩
            rw [← List.singleton_append, textLevel_append, hnone, Option.bind_some]
            exact ih cs.length (by rw [← hlength, List.length_cons]; omega) h depth rfl
          · have hspace := Bool.not_eq_true _ ▸ hspace
            rw [lex_cons hspace] at h
            obtain ⟨⟨t, rest⟩, hfirst, h⟩ := Option.bind_eq_some_iff.mp h
            obtain ⟨us, hus, rfl⟩ := Option.map_eq_some_iff.mp h
            have hshorter : rest.length < n := hlength ▸ readToken_rest_lt hfirst
            obtain ⟨text, htext, hlevel⟩ := level_of_readToken hfirst
            rw [htext, textLevel_append, hlevel, List.map_cons, ← List.singleton_append,
              level_append]
            exact congrArg (Option.bind _) (funext fun d => ih _ hshorter hus d rfl)

end

end C

end ExplicitOde
