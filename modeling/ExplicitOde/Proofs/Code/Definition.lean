import ExplicitOde.Proofs.Code.Body
import ExplicitOde.Proofs.Grid

/-!
# The definitions in a source

The functions and arrays of a source, as they are read: each has a head, which is put together from
what stands before its name, the name and what stands after it, and a body. A query answers with a
number or with a choice between names; arrays hold integers.

**The lines that are generated for a query or for an array are compiled as its definition**:
`compiles_query`, `compiles_array`.
-/

namespace ExplicitOde

namespace Code

open C

variable {α : Type} {type name parameters : String} {macros : List String} {body : List String}
  {ps : List Piece}

/-! ## Functions -/

/-- The tokens of the head of a function. -/
def headTokens (type name parameters : String) : List C.Token :=
  tokens type ++ .word name :: tokens parameters

/-- The texts are tokens that can stand before and after the name of a function. -/
def checkHead (type parameters : String) : Bool :=
  match lex type.toList, lex parameters.toList with
  | some ts, some us =>
    (ts ++ us).all inHead && ts.all (fun t => t != .opening && t != .openingBracket) &&
      us.head? == some .opening && us.getLast? == some .closing
  | _, _ => false

/-- What stands before and after the name of a function. -/
structure IsHead (type parameters : String) : Prop where
  check : checkHead type parameters = true
  plain : Plain type ∧ Plain parameters
  /-- The name ends here. -/
  opens : parameters.toList.head? = some '('

/-- The head of a function with a name. -/
def headText (type name parameters : String) : String := type ++ " " ++ name ++ parameters

theorem IsHead.lex_eq (h : IsHead type parameters) :
    lex type.toList = some (tokens type) ∧ lex parameters.toList = some (tokens parameters) ∧
      (∀ t ∈ tokens type ++ tokens parameters, inHead t = true) ∧
      (∀ t ∈ tokens type, t ≠ .opening ∧ t ≠ .openingBracket) ∧
      (tokens parameters).head? = some .opening ∧ (tokens parameters).getLast? = some .closing := by
  have hcheck := h.check
  unfold checkHead at hcheck
  split at hcheck
  · rename_i ts us hts hus
    simp only [Bool.and_eq_true, List.all_eq_true, bne_iff_ne, beq_iff_eq, and_assoc] at hcheck
    rw [tokens, tokens, hts, hus]
    exact ⟨rfl, rfl, hcheck⟩
  · exact absurd hcheck Bool.false_ne_true

theorem lex_headText (h : IsHead type parameters) (hname : isIdentifier name = true) :
    lex (headText type name parameters).toList = some (headTokens type name parameters) := by
  have htype : Spells Spaced type.toList (tokens type) := spells_of_lex h.lex_eq.1
  have hparameters : Spells Spaced parameters.toList (tokens parameters) :=
    spells_of_lex h.lex_eq.2.1
  have hspace : Spells Anything " ".toList [] := spells_space rfl
  have hends : ∀ rest, Ends (parameters.toList ++ rest) := by
    obtain ⟨cs, hcs⟩ : ∃ cs, parameters.toList = '(' :: cs := List.head?_eq_some_iff.mp h.opens
    exact fun rest => hcs ▸ ends_cons rfl
  have hhead := ((htype.append hspace fun _ _ => spaced_cons rfl).append (spells_word hname)
    fun _ _ => trivial).append hparameters fun rest _ => hends rest
  have hlex := hhead.lex_eq spaced_nil
  rw [headText, String.toList_append, String.toList_append, String.toList_append, hlex, headTokens]
  simp

theorem IsHead.plain_headText (h : IsHead type parameters) (hname : isIdentifier name = true) :
    Plain (headText type name parameters) := by
  have hspace : Plain " " := by decide
  rw [headText]
  exact avoids_append.mpr ⟨avoids_append.mpr ⟨avoids_append.mpr ⟨h.plain.1, hspace⟩,
    (inline_identifier hname).plain⟩, h.plain.2⟩

/-- A function is complete if its body is. -/
theorem IsHead.complete (h : IsHead type parameters) (hps : level 0 ps = some 0) :
    (⟨headTokens type name parameters, ps⟩ : Definition).Complete where
  head := by
    obtain ⟨htype, hparameters⟩ := List.forall_mem_append.mp h.lex_eq.2.2.1
    exact List.forall_mem_append.mpr ⟨htype, List.forall_mem_cons.mpr ⟨rfl, hparameters⟩⟩
  last := by
    refine Or.inl ?_
    rw [headTokens, List.getLast?_append, List.getLast?_cons, h.lex_eq.2.2.2.2.2]
    rfl
  body := hps

theorem IsHead.pieces (h : IsHead type parameters) :
    (⟨headTokens type name parameters, ps⟩ : Definition).pieces =
      (headTokens type name parameters).map .token ++
        (.token .openingBrace :: (ps ++ [.token .closingBrace])) := by
  have hne : (headTokens type name parameters).getLast? ≠ some .assign := by
    rw [headTokens, List.getLast?_append, List.getLast?_cons, h.lex_eq.2.2.2.2.2]
    exact nofun
  rw [Definition.pieces, if_neg hne]

theorem toList_textOfLines_map (lines : List String) :
    (textOfLines lines).toList = (lines.map String.toList).flatMap (· ++ ['\n']) := by
  rw [toList_textOfLines, List.flatMap_map]

/-- Lines that are no directives are compiled as their pieces. -/
theorem compiles_lines {lines : List String} (hplain : ∀ line ∈ lines, Plain line)
    (h : textPieces (lines.map String.toList) = some ps) :
    Compiles macros (lines.map String.toList) macros ps := by
  refine compiles_plain (fun cs hcs => ?_) h
  obtain ⟨line, hline, rfl⟩ := List.mem_map.mp hcs
  exact (hplain line hline).isPlain

/-- The lines of a function are compiled as its definition. -/
theorem IsHead.compiles (h : IsHead type parameters) (hname : isIdentifier name = true)
    (hplain : ∀ line ∈ body, Plain line) (hbody : textPieces (body.map String.toList) = some ps) :
    Compiles macros
      ((functionLines (headText type name parameters) body).map String.toList) macros
      (⟨headTokens type name parameters, ps⟩ : Definition).pieces := by
  have hbraces : Plain " \x7b" ∧ Plain "\x7d" := by decide
  refine compiles_lines ?_ ?_
  · rw [functionLines]
    simp only [List.forall_mem_append, List.forall_mem_singleton]
    exact ⟨⟨avoids_append.mpr ⟨h.plain_headText hname, hbraces.1⟩, hplain⟩, hbraces.2⟩
  · have hhead : linePieces (headText type name parameters ++ " \x7b").toList =
        some ((headTokens type name parameters).map .token ++ [.token .openingBrace]) := by
      have hspaced : Spaced " \x7b".toList := spaced_cons rfl
      have hbrace : linePieces " \x7b".toList = some [.token .openingBrace] := by cbv
      rw [String.toList_append, linePieces_append hspaced (lex_headText h hname), hbrace,
        Option.map_some]
    have hend : linePieces "\x7d".toList = some [.token .closingBrace] := by cbv
    rw [functionLines, List.map_append, List.map_append, textPieces_append, textPieces_append,
      hbody, List.map_singleton, List.map_singleton, textPieces_singleton, textPieces_singleton,
      hhead, hend, h.pieces]
    simp

/-! ## Heads -/

/-- The parameters of a function that evaluates. -/
def evaluationParameters : String :=
  s!"(const {realType}** arg, {realType}** res, {intType}* iw, {realType}* w, void* mem)"

theorem evaluationHead_eq (name : String) :
    evaluationHead name = headText "int" name evaluationParameters := by
  have hint : "int " = "int" ++ " " := rfl
  rw [headText, ← hint]
  delta evaluationHead evaluationParameters
  simp only [toString_text, String.append_assoc]

theorem static_evaluationHead (name : String) :
    "static " ++ evaluationHead name = headText "static int" name evaluationParameters := by
  rw [← String.toList_inj, evaluationHead_eq, headText, headText]
  simp [String.toList_append]

theorem isHead_evaluation : IsHead "int" evaluationParameters where
  check := by cbv
  plain := by decide
  opens := by decide

theorem isHead_kernel : IsHead "static int" evaluationParameters where
  check := by cbv
  plain := by decide
  opens := by decide

namespace Query

/-- The parameters of a query in parentheses. -/
def parameterText (query : Query) : String := "(" ++ query.parameters ++ ")"

theorem head_eq (query : Query) (function : String) : query.head function =
    headText query.resultType (query.name function) query.parameterText := by
  rw [← String.toList_inj, head, headText, parameterText]
  simp [String.toList_append, toString_text]

theorem isHead (query : Query) : IsHead query.resultType query.parameterText where
  check := by cases query <;> cbv
  plain := by cases query <;> decide
  opens := by cases query <;> decide

theorem isIdentifier_name (query : Query) {function : String}
    (h : isIdentifier function = true) : isIdentifier (query.name function) = true := by
  have hending : ∀ query : Query, query.ending.toList.all isNameRest = true := by
    intro query
    cases query <;> rfl
  exact isIdentifier_append h (List.all_eq_true.mp (hending query))

end Query

/-! ## Answers -/

/-- A name with a number at its end. -/
theorem isIdentifier_numbered {w : String} (h : isIdentifier w = true) (k : Nat) :
    isIdentifier (w ++ toString k) = true := by
  refine isIdentifier_append h fun c hc => ?_
  rw [Nat.toString_eq_ofList_toDigits, String.toList_ofList] at hc
  rw [isNameRest, Char.isAlphanum, (digits_toDigits k).2 c hc, Bool.or_true, Bool.true_or]

theorem isIdentifier_patternName (k : Nat) : isIdentifier (patternName k) = true :=
  isIdentifier_numbered (w := "odesens_s") (by decide) k

theorem spells_integer (n : Nat) : Spells Ends (toString n).toList [.number (toString n)] := by
  rw [Nat.toString_eq_ofList_toDigits, String.toList_ofList]
  exact spells_toDigits n

/-- What can be returned in a case: the text is one piece, and the piece is no brace. -/
structure IsAnswer (item : String) (p : Piece) : Prop where
  linePieces : linePieces (' ' :: (item.toList ++ [';'])) = some [p, .token .semicolon]
  plain : Plain item
  level : ∀ depth, level depth [p] = some depth

theorem isAnswer_word {w : String} (h : isIdentifier w = true) :
    IsAnswer w (.token (.word w)) where
  linePieces := by
    have hend : Spells Anything [';'] [.semicolon] := spells_closedSign (by decide)
    have hspells := (spells_space (c := ' ') rfl).append ((spells_word h).append hend
      fun _ _ => ends_cons rfl) fun _ _ => trivial
    exact linePieces_of_lex (hspells.lex_eq trivial)
  plain := (inline_identifier h).plain
  level _ := rfl

/-- A string without quotes and backslashes. -/
theorem readQuoted_eq {cs : List Char} (h : ∀ c ∈ cs, c ≠ '"' ∧ c ≠ '\\') (rest : List Char) :
    readQuoted (cs ++ '"' :: rest) = some (cs, rest) := by
  induction cs with
  | nil => rfl
  | cons c cs ih =>
      obtain ⟨hc, hcs⟩ := List.forall_mem_cons.mp h
      rw [List.cons_append, readQuoted, ih hcs]
      · rfl
      · exact hc.1
      · exact fun _ _ hbackslash => absurd hbackslash hc.2

theorem isAnswer_nameLiteral {w : String} (h : isIdentifier w = true) :
    IsAnswer (nameLiteral w) (.quoted w) where
  linePieces := by
    have hquotes : ∀ c ∈ w.toList, c ≠ '"' ∧ c ≠ '\\' := by
      intro c hc
      have hne : Avoids ['"', '\\'] w := avoids_identifier rfl h
      simpa only [List.mem_cons, List.not_mem_nil, or_false, not_or] using hne c hc
    have htext : (nameLiteral w).toList ++ [';'] = '"' :: (w.toList ++ '"' :: [';']) := by
      simp [nameLiteral, String.toList_append]
    have hread : readPiece ('"' :: (w.toList ++ '"' :: [';'])) =
        some (some (.quoted w), [';']) := by
      rw [readPiece, readQuoted_eq hquotes, Option.map_some]
      dsimp only
      rw [String.ofList_toList]
    have hend : C.linePieces [';'] = some [.token .semicolon] := by cbv
    rw [htext, linePieces_space rfl, linePieces_of_readPiece rfl hread, hend]
    rfl
  plain := by
    have hquote : Plain "\"" := by decide
    exact avoids_append.mpr ⟨avoids_append.mpr ⟨hquote, (inline_identifier h).plain⟩, hquote⟩
  level _ := rfl

/-- What is made of the numbers of elements. -/
theorem map_zipIdx {β γ : Type} (xs : List β) (g : Nat → γ) :
    xs.zipIdx.map (fun p => g p.2) = (List.range xs.length).map g := by
  rw [List.range_eq_range', ← List.zipIdx_map_snd 0 xs, List.map_map]
  rfl

/-- The cases of a choice between answers. -/
def casesOf (answers : List Piece) : List (Nat × Piece) :=
  answers.zipIdx.map fun (p, i) => (i, p)

/-- The line of a case. -/
theorem linePieces_case {item : String} {p : Piece} (h : IsAnswer item p) (i : Nat) :
    linePieces (s!"    case {i}: return {item};").toList = some (casePieces (i, p)) ∧
      Plain s!"    case {i}: return {item};" := by
  constructor
  · have hcase : Spells Spaced "    case".toList [.word "case"] := spells_of_lex (by cbv)
    have hreturn : Spells Spaced ": return".toList [.colon, .word "return"] :=
      spells_of_lex (by cbv)
    have hnumber := (spells_space (c := ' ') rfl).append ((spells_integer i).append hreturn
      fun _ _ => ends_cons rfl) fun _ _ => trivial
    have hhead := (hcase.append hnumber fun _ _ => spaced_cons rfl).lex_eq spaced_nil
    have htext : (s!"    case {i}: return {item};").toList =
        "    case".toList ++ ([' '] ++ ((toString i).toList ++ ": return".toList)) ++
          ' ' :: (item.toList ++ [';']) := by
      simp [String.toList_append, toString_text]
    rw [htext, linePieces_append (spaced_cons rfl) hhead, h.linePieces]
    rfl
  · simp only [toString_text, avoids_append, (inline_integer i).plain, h.plain, and_true]
    decide

/-- The lines of the cases, which are numbered from any number on. -/
theorem textPieces_cases {items : List String} {answers : List Piece}
    (h : List.Forall₂ IsAnswer items answers) (n : Nat) :
    textPieces (((items.zipIdx n).map fun (item, i) =>
      s!"    case {i}: return {item};").map String.toList) =
        some (((answers.zipIdx n).map fun (p, i) => (i, p)).flatMap casePieces) ∧
      ∀ line ∈ (items.zipIdx n).map fun (item, i) => s!"    case {i}: return {item};",
        Plain line := by
  induction h generalizing n with
  | nil => exact ⟨rfl, List.forall_mem_nil _⟩
  | cons hone _ ih =>
      obtain ⟨hline, hplain⟩ := linePieces_case hone n
      obtain ⟨hlines, hothers⟩ := ih (n + 1)
      rw [List.zipIdx_cons, List.zipIdx_cons, List.map_cons, List.map_cons, List.map_cons,
        textPieces, hline, hlines]
      exact ⟨rfl, List.forall_mem_cons.mpr ⟨hplain, hothers⟩⟩

/-- **The lines of a choice are read as the choice.** -/
theorem textPieces_switchLines {items : List String} {answers : List Piece}
    (h : List.Forall₂ IsAnswer items answers) :
    textPieces ((switchLines items).map String.toList) = some (choicePieces (casesOf answers)) ∧
      ∀ line ∈ switchLines items, Plain line := by
  obtain ⟨hlines, hplain⟩ := textPieces_cases h 0
  have hfirst : textPieces (["  switch (i) \x7b"].map String.toList) =
      some [.token (.word "switch"), .token .opening, .token (.word "i"), .token .closing,
        .token .openingBrace] := by cbv
  have hlast : textPieces (["    default: return 0;", "  \x7d"].map String.toList) =
      some [.token (.word "default"), .token .colon, .token (.word "return"),
        .token (.number "0"), .token .semicolon, .token .closingBrace] := by cbv
  constructor
  · rw [switchLines, List.map_append, List.map_append, textPieces_append, textPieces_append,
      hfirst, hlines, hlast]
    simp [choicePieces, casesPieces, casesOf]
  · have hends : ∀ line ∈ ["  switch (i) \x7b", "    default: return 0;", "  \x7d"],
        Plain line := by decide
    simp only [List.forall_mem_cons] at hends
    rw [switchLines]
    simp only [List.forall_mem_append, List.forall_mem_cons]
    exact ⟨⟨⟨hends.1, List.forall_mem_nil _⟩, hplain⟩, hends.2.1, hends.2.2.1,
      List.forall_mem_nil _⟩

theorem level_choice {items : List String} {answers : List Piece}
    (h : List.Forall₂ IsAnswer items answers) :
    level 0 (choicePieces (casesOf answers)) = some 0 := by
  refine level_choicePieces fun p hp => ?_
  obtain ⟨⟨answer, i⟩, hmem, rfl⟩ := List.mem_map.mp hp
  obtain ⟨_, _, hanswer⟩ := Grid.exists_of_mem_forall₂ h (List.fst_mem_of_mem_zipIdx hmem)
  exact hanswer.level

/-- A text that is cut into tokens, an integer behind it, and more tokens. -/
theorem lex_integer {before after : String} {ts us : List C.Token}
    (hbefore : lex before.toList = some ts) (hafter : lex after.toList = some us)
    (hends : ∀ rest, Ends (after.toList ++ rest)) (n : Nat) :
    lex (before ++ " " ++ toString n ++ after).toList =
      some (ts ++ .number (toString n) :: us) := by
  have hspace : Spells Anything " ".toList [] := spells_space rfl
  have hnumber := ((spells_of_lex hbefore).append hspace fun _ _ => spaced_cons rfl).append
    (spells_integer n) fun _ _ => trivial
  have hlex := (hnumber.append (spells_of_lex hafter) fun rest _ => hends rest).lex_eq spaced_nil
  rw [String.toList_append, String.toList_append, String.toList_append, hlex]
  simp

/-- The body that returns a constant. -/
def resultPieces (n : Nat) : List Piece :=
  [.token (.word "return"), integerPiece n, .token .semicolon]

/-- A line that ends with an integer. -/
def countPieces (before : String) (n : Nat) : List Piece :=
  (tokens before).map .token ++ [integerPiece n, .token .semicolon]

/-- The body that answers how much memory is needed. -/
def workspacePieces (inputs outputs : Nat) : List Piece :=
  countPieces "  if (sz_arg) *sz_arg =" inputs ++ (countPieces "  if (sz_res) *sz_res =" outputs ++
    (tokens "  if (sz_iw) *sz_iw = 0;\n  if (sz_w) *sz_w = 0;\n  return 0;\n").map .token)

/-- The body of a query about a function. -/
def answerPieces (f : SymbolicFunction α) : Query → List Piece
  | .inputCount => resultPieces f.inputs.length
  | .outputCount => resultPieces f.outputs.length
  | .inputName =>
    choicePieces (casesOf ((List.range f.inputs.length).map fun i =>
      .quoted (SymbolicFunction.inputName i)))
  | .outputName =>
    choicePieces (casesOf ((List.range f.outputs.length).map fun i =>
      .quoted (SymbolicFunction.outputName i)))
  | .inputPattern =>
    choicePieces (casesOf (f.inputs.map fun m =>
      .token (.word (patternName (f.patternIndex m.shape)))))
  | .outputPattern =>
    choicePieces (casesOf (f.outputs.map fun m =>
      .token (.word (patternName (f.patternIndex m.shape)))))
  | .workspace => workspacePieces f.inputs.length f.outputs.length

/-- The definition of a query about a function. -/
def queryDefinition (f : SymbolicFunction α) (query : Query) : Definition :=
  ⟨headTokens query.resultType (query.name f.name) query.parameterText, answerPieces f query⟩

theorem isAnswer_names {inputName : Nat → String} (h : ∀ i, isIdentifier (inputName i) = true)
    (n : Nat) : List.Forall₂ IsAnswer ((List.range n).map fun i => nameLiteral (inputName i))
      ((List.range n).map fun i => .quoted (inputName i)) := by
  rw [List.forall₂_map_left_iff, List.forall₂_map_right_iff, List.forall₂_same]
  exact fun i _ => isAnswer_nameLiteral (h i)

theorem isAnswer_patterns (f : SymbolicFunction α) (ms : List (ExprMatrix α)) :
    List.Forall₂ IsAnswer (ms.map fun m => patternName (f.patternIndex m.shape))
      (ms.map fun m => .token (.word (patternName (f.patternIndex m.shape)))) := by
  rw [List.forall₂_map_left_iff, List.forall₂_map_right_iff, List.forall₂_same]
  exact fun m _ => isAnswer_word (isIdentifier_patternName _)

theorem isIdentifier_inputName (i : Nat) : isIdentifier (SymbolicFunction.inputName i) = true :=
  isIdentifier_numbered (w := "i") (by decide) i

theorem isIdentifier_outputName (i : Nat) : isIdentifier (SymbolicFunction.outputName i) = true :=
  isIdentifier_numbered (w := "o") (by decide) i

/-- A function on one line that returns a constant. -/
theorem IsHead.compiles_result (h : IsHead type parameters) (hname : isIdentifier name = true)
    (n : Nat) : Compiles macros
      ([s!"{headText type name parameters} \x7b return {n}; \x7d"].map String.toList) macros
      (⟨headTokens type name parameters, resultPieces n⟩ : Definition).pieces := by
  have hopening : lex (headText type name parameters ++ " \x7b return").toList =
      some (headTokens type name parameters ++ [.openingBrace, .word "return"]) := by
    have hbrace : lex " \x7b return".toList = some [.openingBrace, .word "return"] := by cbv
    have hspaced : Spaced " \x7b return".toList := spaced_cons rfl
    rw [String.toList_append, lex_append hspaced, lex_headText h hname, hbrace]
    rfl
  have hclosing : lex "; \x7d".toList = some [.semicolon, .closingBrace] := by cbv
  have htext : s!"{headText type name parameters} \x7b return {n}; \x7d" =
      headText type name parameters ++ " \x7b return" ++ " " ++ toString n ++ "; \x7d" := by
    apply String.toList_inj.mp
    simp [String.toList_append, toString_text]
  rw [htext]
  refine compiles_lines (List.forall_mem_singleton.mpr ?_) ?_
  · simp only [avoids_append, h.plain_headText hname, (inline_integer n).plain, and_true, true_and]
    decide
  · rw [List.map_singleton, textPieces_singleton, linePieces_of_lex
      (lex_integer hopening hclosing (fun rest => ends_cons rfl) n), h.pieces]
    simp [resultPieces, integerPiece]

theorem linePieces_count (before : String) (h : (lex before.toList).isSome = true) (n : Nat) :
    linePieces (before ++ " " ++ toString n ++ ";").toList = some (countPieces before n) := by
  have hend : lex ";".toList = some [.semicolon] := by cbv
  rw [linePieces_of_lex (lex_integer (lex_tokens before h) hend (fun _ => ends_cons rfl) n),
    List.map_append]
  rfl

theorem level_countPieces (before : String) (h : level 0 ((tokens before).map .token) = some 0)
    (n : Nat) : level 0 (countPieces before n) = some 0 := by
  rw [countPieces, level_append, h]
  rfl

/-- The lines of the body that answers how much memory is needed. -/
def workspaceLines (inputs outputs : Nat) : List String :=
  [s!"  if (sz_arg) *sz_arg = {inputs};", s!"  if (sz_res) *sz_res = {outputs};",
    "  if (sz_iw) *sz_iw = 0;", "  if (sz_w) *sz_w = 0;", "  return 0;"]

theorem textPieces_workspaceLines (inputs outputs : Nat) :
    textPieces ((workspaceLines inputs outputs).map String.toList) =
      some (workspacePieces inputs outputs) := by
  have harg := linePieces_count "  if (sz_arg) *sz_arg =" (by cbv) inputs
  have hres := linePieces_count "  if (sz_res) *sz_res =" (by cbv) outputs
  have hrest : textPieces
      (["  if (sz_iw) *sz_iw = 0;", "  if (sz_w) *sz_w = 0;", "  return 0;"].map String.toList) =
      some ((tokens "  if (sz_iw) *sz_iw = 0;\n  if (sz_w) *sz_w = 0;\n  return 0;\n").map
        .token) := by
    refine textPieces_of_lex ?_
    exact lex_tokens "  if (sz_iw) *sz_iw = 0;\n  if (sz_w) *sz_w = 0;\n  return 0;\n"
      (by cbv)
  have hspace : "  if (sz_arg) *sz_arg = " = "  if (sz_arg) *sz_arg =" ++ " " ∧
      "  if (sz_res) *sz_res = " = "  if (sz_res) *sz_res =" ++ " " := ⟨rfl, rfl⟩
  rw [workspaceLines, List.map_cons, List.map_cons, textPieces, textPieces, toString_text,
    toString_text, toString_text, hspace.1, hspace.2, harg, hres, hrest]
  rfl

theorem level_workspacePieces (inputs outputs : Nat) :
    level 0 (workspacePieces inputs outputs) = some 0 := by
  have harg := level_countPieces "  if (sz_arg) *sz_arg =" (by cbv) inputs
  have hres := level_countPieces "  if (sz_res) *sz_res =" (by cbv) outputs
  have hrest : level 0
      ((tokens "  if (sz_iw) *sz_iw = 0;\n  if (sz_w) *sz_w = 0;\n  return 0;\n").map .token) =
        some 0 := by cbv
  rw [workspacePieces, level_append, harg, Option.bind_some, level_append, hres, Option.bind_some,
    hrest]

theorem plain_workspaceLines (inputs outputs : Nat) :
    ∀ line ∈ workspaceLines inputs outputs, Plain line := by
  have hnumber := fun n => (inline_integer n).plain
  simp only [workspaceLines, List.forall_mem_cons, toString_text, avoids_append, hnumber, and_true]
  refine ⟨by decide, by decide, by decide, by decide, by decide, List.forall_mem_nil _⟩

/-- The text of a query: a number that is returned on one line, or lines of their own between the
braces. -/
theorem queryLines_eq (f : SymbolicFunction α) (query : Query) :
    (∃ n : Nat, queryLines f query = [s!"{query.head f.name} \x7b return {n}; \x7d"] ∧
      answerPieces f query = resultPieces n) ∨
    ∃ body, queryLines f query = functionLines (query.head f.name) body ∧
      textPieces (body.map String.toList) = some (answerPieces f query) ∧
      (∀ line ∈ body, Plain line) ∧ level 0 (answerPieces f query) = some 0 := by
  have hchoice : ∀ {items : List String} {answers : List Piece},
      List.Forall₂ IsAnswer items answers →
      textPieces ((switchLines items).map String.toList) = some (choicePieces (casesOf answers)) ∧
      (∀ line ∈ switchLines items, Plain line) ∧
      level 0 (choicePieces (casesOf answers)) = some 0 :=
    fun h => ⟨(textPieces_switchLines h).1, (textPieces_switchLines h).2, level_choice h⟩
  cases query with
  | inputCount => exact Or.inl ⟨_, rfl, rfl⟩
  | outputCount => exact Or.inl ⟨_, rfl, rfl⟩
  | inputName => exact Or.inr ⟨_, rfl, hchoice (isAnswer_names isIdentifier_inputName _)⟩
  | outputName => exact Or.inr ⟨_, rfl, hchoice (isAnswer_names isIdentifier_outputName _)⟩
  | inputPattern => exact Or.inr ⟨_, rfl, hchoice (isAnswer_patterns f _)⟩
  | outputPattern => exact Or.inr ⟨_, rfl, hchoice (isAnswer_patterns f _)⟩
  | workspace =>
      exact Or.inr ⟨_, rfl, textPieces_workspaceLines _ _, plain_workspaceLines _ _,
        level_workspacePieces _ _⟩

/-- **The lines of a query are compiled as its definition.** -/
theorem compiles_query (f : SymbolicFunction α) (hname : isIdentifier f.name = true)
    (query : Query) : Compiles macros ((queryLines f query).map String.toList) macros
      (queryDefinition f query).pieces ∧ (queryDefinition f query).Complete := by
  have hquery := query.isIdentifier_name hname
  rcases queryLines_eq f query with ⟨n, hlines, hanswer⟩ | ⟨body, hlines, hbody, hplain, hlevel⟩
  · rw [hlines, queryDefinition, hanswer, Query.head_eq]
    exact ⟨query.isHead.compiles_result hquery n, query.isHead.complete rfl⟩
  · rw [hlines, Query.head_eq]
    exact ⟨query.isHead.compiles hquery hplain hbody, query.isHead.complete hlevel⟩

/-! ## Arrays -/

/-- What an array of integers is declared as. -/
def arrayType : String := "static const " ++ intType

/-- The definition of the array of a pattern. -/
def arrayDefinition (index : Nat) (entries : List Nat) : Definition :=
  ⟨tokens arrayType ++ [.word (patternName index), .openingBracket,
      .number (toString entries.length), .closingBracket, .assign],
    (integerTokens entries).map .token⟩

/-- Integers with commas between them. -/
theorem spells_integers {ns : List Nat} (h : ns ≠ []) :
    Spells Ends (String.intercalate ", " (ns.map toString)).toList (integerTokens ns) := by
  have hcomma : Spells Anything [',', ' '] [.comma] :=
    (spells_closedSign (by decide : (',', C.Token.comma) ∈ closedSigns)).append (spells_space rfl)
      fun _ _ => trivial
  induction ns with
  | nil => exact absurd rfl h
  | cons n ns ih =>
      cases ns with
      | nil =>
          rw [List.map_singleton, String.intercalate_singleton]
          exact spells_integer n
      | cons k ns =>
          have hothers := ih (List.cons_ne_nil k ns)
          have htext : (String.intercalate ", " ((n :: k :: ns).map toString)).toList =
              (toString n).toList ++ ([',', ' '] ++
                (String.intercalate ", " ((k :: ns).map toString)).toList) := by
            rw [List.map_cons, List.map_cons, String.intercalate_cons_cons]
            simp [String.toList_append]
          rw [htext]
          exact (spells_integer n).append (hcomma.append hothers fun _ _ => trivial)
            fun _ _ => ends_cons rfl

theorem level_integerTokens : ∀ ns : List Nat, level 0 ((integerTokens ns).map .token) = some 0
  | [] => rfl
  | [_] => rfl
  | _ :: k :: ns => level_integerTokens (k :: ns)

/-- The line of an array. -/
def arrayLine (index : Nat) (entries : List Nat) : String :=
  s!"static const {intType} {patternName index}[{entries.length}] = \x7b" ++
    String.intercalate ", " (entries.map toString) ++ "\x7d;"

theorem arrayLine_eq (index : Nat) (entries : List Nat) : arrayLine index entries =
    arrayType ++ (" " ++ (patternName index ++ ("[" ++ (toString entries.length ++ ("]" ++ (" =" ++
      (" " ++ ("\x7b" ++ (String.intercalate ", " (entries.map toString) ++ "\x7d;"))))))))) := by
  have hassign : "] = \x7b" = "]" ++ (" =" ++ (" " ++ "\x7b")) := rfl
  delta arrayLine arrayType
  simp only [toString_text, String.append_assoc, hassign]

theorem lex_arrayLine (index : Nat) {entries : List Nat} (h : entries ≠ []) :
    lex (arrayLine index entries).toList = some ((arrayDefinition index entries).head ++
      .openingBrace :: (integerTokens entries ++ [.closingBrace, .semicolon])) := by
  have htype : Spells Spaced arrayType.toList (tokens arrayType) :=
    spells_of_lex (lex_tokens arrayType (by cbv))
  have hspace : Spells Anything " ".toList [] := spells_space rfl
  have hname := spells_word (isIdentifier_patternName index)
  have hleft : Spells Anything "[".toList [.openingBracket] := spells_closedSign (by decide)
  have hright : Spells Anything "]".toList [.closingBracket] := spells_closedSign (by decide)
  have hassign : Spells Spaced " =".toList [.assign] := spells_of_lex (by cbv)
  have hopening : Spells Anything "\x7b".toList [.openingBrace] := spells_closedSign (by decide)
  have hclosing : Spells Spaced "\x7d;".toList [.closingBrace, .semicolon] :=
    spells_of_lex (by cbv)
  -- what is before the brace, from the last text to the first
  have hbody := hopening.append ((spells_integers h).append hclosing fun _ _ => ends_cons rfl)
    fun _ _ => trivial
  have hbrackets := hleft.append ((spells_integer entries.length).append (hright.append
    (hassign.append (hspace.append hbody fun _ _ => trivial) fun _ _ => spaced_cons rfl)
    fun _ _ => trivial) fun _ _ => ends_cons rfl) fun _ _ => trivial
  have hline := htype.append (hspace.append (hname.append hbrackets fun _ _ => ends_cons rfl)
    fun _ _ => trivial) fun _ _ => spaced_cons rfl
  have htext := hline.lex_eq spaced_nil
  simp only [← String.toList_append, ← arrayLine_eq] at htext
  rw [htext]
  simp [arrayDefinition]

/-- The line of an array is compiled as its definition. -/
theorem compiles_array (index : Nat) {entries : List Nat} (h : entries ≠ []) :
    Compiles macros ([arrayLine index entries].map String.toList) macros
      (arrayDefinition index entries).pieces ∧ (arrayDefinition index entries).Complete := by
  -- an equals sign in front of the brace tells an array from a function
  have hlast : (arrayDefinition index entries).head.getLast? = some .assign := by
    rw [arrayDefinition, List.getLast?_append]
    rfl
  have hnumbers : Plain (String.intercalate ", " (entries.map toString)) :=
    avoids_intercalate (by decide) fun w hw => by
      obtain ⟨n, _, rfl⟩ := List.mem_map.mp hw
      exact (inline_integer n).plain
  have hname : Plain (patternName index) :=
    (inline_identifier (isIdentifier_patternName index)).plain
  have hplain : Plain (arrayLine index entries) := by
    simp only [arrayLine_eq, avoids_append, hnumbers, hname, (inline_integer _).plain, true_and]
    decide
  constructor
  · refine compiles_lines (List.forall_mem_singleton.mpr hplain) ?_
    rw [List.map_singleton, textPieces_singleton, linePieces_of_lex (lex_arrayLine index h),
      Definition.pieces, if_pos hlast, List.map_append, List.map_cons, List.map_append]
    rfl
  · refine ⟨?_, Or.inr hlast, level_integerTokens entries⟩
    have htype : ∀ t ∈ tokens arrayType, inHead t = true := by
      have hall : (tokens arrayType).all inHead = true := by cbv
      exact List.all_eq_true.mp hall
    refine List.forall_mem_append.mpr ⟨htype, ?_⟩
    simp only [List.forall_mem_cons]
    exact ⟨rfl, rfl, rfl, rfl, rfl, List.forall_mem_nil _⟩

end Code

end ExplicitOde
