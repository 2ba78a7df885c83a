import ExplicitOde.Proofs.C.Constant
import ExplicitOde.Proofs.C.Piece

/-!
# Translation units of C

What a C compiler finds in a source file: the macros that are defined, and the definitions of arrays
and functions, one after the other, each with its head and with what is between its braces.

A file is read line by line. Directives choose the lines that are compiled, all others are cut into
pieces, and the pieces are cut into definitions by their braces. No macro is defined before the
first line. Files with anything else, such as declarations or other directives, are not read at all.
Macros are not expanded, so that what is read stands for what is compiled as long as macros have
names of their own.
-/

namespace ExplicitOde

namespace C

/-! ## Lines -/

/-- The lines of a text. -/
def lines : List Char → List (List Char)
  | [] => []
  | c :: cs =>
    if c = '\n' then [] :: lines cs
    else
      match lines cs with
      | [] => [[c]]
      | line :: more => (c :: line) :: more

/-- A text that is put together from lines has these lines. -/
theorem lines_flatMap {ls : List (List Char)} (h : ∀ line ∈ ls, '\n' ∉ line) :
    lines (ls.flatMap (· ++ ['\n'])) = ls := by
  have hline : ∀ {line : List Char} (rest : List Char), '\n' ∉ line →
      lines (line ++ '\n' :: rest) = line :: lines rest := by
    intro line rest hline
    induction line with
    | nil => rw [List.nil_append, lines, if_pos rfl]
    | cons c line ih =>
        obtain ⟨hc, hline⟩ := not_or.mp (List.mem_cons.not.mp hline)
        rw [List.cons_append, lines, if_neg (Ne.symm hc), ih hline]
  induction ls with
  | nil => rfl
  | cons line ls ih =>
      obtain ⟨hfirst, hothers⟩ := List.forall_mem_cons.mp h
      rw [List.flatMap_cons, List.append_assoc, List.singleton_append, hline _ hfirst, ih hothers]

/-! ## Directives -/

/-- What a line with a `#` at its start asks for. -/
inductive Directive where
  | include
  | ifDefined (name : String)
  | ifUndefined (name : String)
  | endif
  | define (name : String)
  deriving DecidableEq

/-- The word at the start of a text, and what follows it. -/
def firstWord (cs : List Char) : String × List Char :=
  let cs := cs.dropWhile isSpace
  (String.ofList (cs.takeWhile isNameRest), cs.dropWhile isNameRest)

/-- Reads a directive behind its `#`. Macros with parameters are not read. -/
def readDirective (cs : List Char) : Option Directive :=
  let (kind, rest) := firstWord cs
  let (name, after) := firstWord rest
  let alone := after.all isSpace
  match kind with
  | "include" => some .include
  | "ifdef" => if isIdentifier name && alone then some (.ifDefined name) else none
  | "ifndef" => if isIdentifier name && alone then some (.ifUndefined name) else none
  | "endif" => if rest.all isSpace then some .endif else none
  | "define" =>
    if isIdentifier name && after.head?.all isSpace then some (.define name) else none
  | _ => none

/-- The directive of a line, if there is a `#` at its start. -/
def directive? (line : List Char) : Option (Option Directive) :=
  match line.dropWhile isSpace with
  | '#' :: cs => some (readDirective cs)
  | _ => none

/-- The macros after some lines, and the pieces of those that are compiled. The lines stand inside
of conditions that hold or do not hold. -/
def preprocess (macros : List String) (conditions : List Bool) :
    List (List Char) → Option (List String × List Piece)
  | [] => if conditions.isEmpty then some (macros, []) else none
  | line :: lines =>
    match directive? line with
    | none =>
      if conditions.all id then
        (linePieces line).bind fun ps =>
          (preprocess macros conditions lines).map fun (ms, qs) => (ms, ps ++ qs)
      else preprocess macros conditions lines
    | some none => none
    | some (some .include) => preprocess macros conditions lines
    | some (some (.ifDefined name)) => preprocess macros (macros.contains name :: conditions) lines
    | some (some (.ifUndefined name)) =>
      preprocess macros ((!macros.contains name) :: conditions) lines
    | some (some .endif) =>
      match conditions with
      | [] => none
      | _ :: outer => preprocess macros outer lines
    | some (some (.define name)) =>
      preprocess (if conditions.all id then macros ++ [name] else macros) conditions lines

/-! ## Parts of a file -/

/-- The lines are compiled as these pieces and leave these macros, whatever follows. -/
structure Compiles (macros : List String) (ls : List (List Char)) (macros' : List String)
    (ps : List Piece) : Prop where
  lines : ∀ line ∈ ls, '\n' ∉ line
  read : ∀ rest, preprocess macros [] (ls ++ rest) =
    (preprocess macros' [] rest).map fun (ms, qs) => (ms, ps ++ qs)

section

variable {macros macros' macros'' : List String} {as bs ls : List (List Char)} {ps qs : List Piece}
  {first second last : List Char} {name : String}

theorem compiles_nil : Compiles macros [] macros [] := ⟨List.forall_mem_nil _, fun _ => by simp⟩

theorem Compiles.append (h : Compiles macros as macros' ps) (h' : Compiles macros' bs macros'' qs) :
    Compiles macros (as ++ bs) macros'' (ps ++ qs) where
  lines := List.forall_mem_append.mpr ⟨h.lines, h'.lines⟩
  read rest := by
    rw [List.append_assoc, h.read, h'.read, Option.map_map]
    exact congrArg (Option.map · _) (funext fun r => by simp)

/-- The lines of several things, one after the other. -/
theorem compiles_flatMap {β : Type} {xs : List β} {f : β → List (List Char)} {g : β → List Piece}
    (h : ∀ x ∈ xs, Compiles macros (f x) macros (g x)) :
    Compiles macros (xs.flatMap f) macros (xs.flatMap g) := by
  induction xs with
  | nil => exact compiles_nil
  | cons x xs ih =>
      obtain ⟨hx, hxs⟩ := List.forall_mem_cons.mp h
      exact hx.append (ih hxs)

/-- A text that stays on its line and is no directive. -/
def IsPlain (line : List Char) : Prop := ∀ c ∈ line, c ≠ '\n' ∧ c ≠ '#'

theorem IsPlain.directive? (h : IsPlain first) : directive? first = none := by
  unfold C.directive?
  split
  · rename_i cs hcs
    have hmem : '#' ∈ first := (List.dropWhile_suffix isSpace).mem (hcs ▸ List.mem_cons_self)
    exact absurd rfl (h _ hmem).2
  · rfl

/-- Plain lines are compiled as their pieces. -/
theorem compiles_plain (hplain : ∀ line ∈ ls, IsPlain line) (h : textPieces ls = some ps) :
    Compiles macros ls macros ps where
  lines line hline hmem := absurd rfl (hplain line hline _ hmem).1
  read rest := by
    induction ls generalizing ps with
    | nil =>
        obtain rfl := Option.some.inj h
        exact Option.map_id'.symm
    | cons line ls ih =>
        obtain ⟨hline, hls⟩ := List.forall_mem_cons.mp hplain
        obtain ⟨as, has, h⟩ := Option.bind_eq_some_iff.mp h
        obtain ⟨bs, hbs, rfl⟩ := Option.map_eq_some_iff.mp h
        rw [List.cons_append, preprocess, hline.directive?]
        dsimp only
        rw [if_pos (by rfl), has, Option.bind_some, ih hls hbs, Option.map_map]
        exact congrArg (Option.map · _) (funext fun r => by simp)

/-- Other files are not read. -/
theorem compiles_include (h : directive? first = some (some .include)) (hline : '\n' ∉ first) :
    Compiles macros [first] macros [] where
  lines := List.forall_mem_singleton.mpr hline
  read rest := by
    rw [List.singleton_append, preprocess, h]
    exact Option.map_id'.symm

/-- Lines under a condition that does not hold are not compiled. -/
theorem compiles_skipped (hlines : ∀ line ∈ first :: (ls ++ [last]), '\n' ∉ line)
    (hfirst : directive? first = some (some (.ifDefined name)))
    (hname : macros.contains name = false)
    (hinside : ∀ line ∈ ls, directive? line = none ∨ directive? line = some (some .include))
    (hlast : directive? last = some (some .endif)) :
    Compiles macros (first :: (ls ++ [last])) macros [] where
  lines := hlines
  read rest := by
    have hskip : preprocess macros [false] (ls ++ last :: rest) =
        preprocess macros [false] (last :: rest) := by
      clear hlines
      induction ls with
      | nil => rfl
      | cons line ls ih =>
          obtain ⟨hline, hls⟩ := List.forall_mem_cons.mp hinside
          rw [List.cons_append, preprocess]
          rcases hline with hline | hline <;> rw [hline] <;> exact ih hls
    rw [List.cons_append, List.append_assoc, List.singleton_append, preprocess, hfirst]
    dsimp only
    rw [hname, hskip, preprocess, hlast]
    exact Option.map_id'.symm

/-- The definition of a macro that there is not yet. -/
theorem compiles_macro (hlines : ∀ line ∈ [first, second, last], '\n' ∉ line)
    (hfirst : directive? first = some (some (.ifUndefined name)))
    (hname : macros.contains name = false)
    (hsecond : directive? second = some (some (.define name)))
    (hlast : directive? last = some (some .endif)) :
    Compiles macros [first, second, last] (macros ++ [name]) [] where
  lines := hlines
  read rest := by
    rw [List.cons_append, List.cons_append, List.singleton_append, preprocess, hfirst]
    dsimp only
    rw [hname, preprocess, hsecond]
    dsimp only
    rw [if_pos (by rfl), preprocess, hlast]
    exact Option.map_id'.symm

end

/-! ## Definitions -/

/-- A definition of an array or of a function. -/
structure Definition where
  /-- The tokens before the opening brace. -/
  head : List Token
  /-- What is between the braces. -/
  body : List Piece
  deriving DecidableEq

/-- The tokens that stand in a head. -/
def inHead : Token → Bool
  | .word _ | .number _ | .opening | .closing | .openingBracket | .closingBracket | .times | .comma
  | .assign => true
  | _ => false

/-- The tokens up to an opening brace, and what follows it. -/
def readHead : List Piece → Option (List Token × List Piece)
  | .token .openingBrace :: ps => some ([], ps)
  | .token t :: ps =>
    if inHead t then (readHead ps).map fun (ts, after) => (t :: ts, after) else none
  | _ => none

/-- The pieces up to the brace that closes them, where so many others are open, and what follows. -/
def readBody : Nat → List Piece → Option (List Piece × List Piece)
  | _, [] => none
  | 0, .token .closingBrace :: ps => some ([], ps)
  | depth + 1, .token .closingBrace :: ps =>
    (readBody depth ps).map fun (inside, after) => (.token .closingBrace :: inside, after)
  | depth, .token .openingBrace :: ps =>
    (readBody (depth + 1) ps).map fun (inside, after) => (.token .openingBrace :: inside, after)
  | depth, p :: ps => (readBody depth ps).map fun (inside, after) => (p :: inside, after)

/-- The definitions of some pieces. A function ends with its brace, an array with a semicolon. -/
def readDefinitions : Nat → List Piece → Option (List Definition)
  | _, [] => some []
  | 0, _ => none
  | n + 1, ps =>
    (readHead ps).bind fun (head, inside) =>
      (readBody 0 inside).bind fun (body, after) =>
        match head.getLast?, after with
        | some .closing, after => (readDefinitions n after).map (⟨head, body⟩ :: ·)
        | some .assign, .token .semicolon :: after =>
          (readDefinitions n after).map (⟨head, body⟩ :: ·)
        | _, _ => none

/-- The pieces of a definition. -/
def Definition.pieces (d : Definition) : List Piece :=
  d.head.map .token ++ .token .openingBrace :: (d.body ++ .token .closingBrace ::
    if d.head.getLast? = some .assign then [.token .semicolon] else [])

/-- The definition is read as it is from its pieces. -/
structure Definition.Complete (d : Definition) : Prop where
  head : ∀ t ∈ d.head, inHead t = true
  last : d.head.getLast? = some .closing ∨ d.head.getLast? = some .assign
  /-- Inside of the braces, what is opened is closed. -/
  body : level 0 d.body = some 0

theorem readHead_eq {ts : List Token} (h : ∀ t ∈ ts, inHead t = true) (ps : List Piece) :
    readHead (ts.map .token ++ .token .openingBrace :: ps) = some (ts, ps) := by
  induction ts with
  | nil => rfl
  | cons t ts ih =>
      obtain ⟨ht, hts⟩ := List.forall_mem_cons.mp h
      have hne : t ≠ .openingBrace := by
        rintro rfl
        exact Bool.noConfusion ht
      rw [List.map_cons, List.cons_append, readHead, if_pos ht, ih hts]
      · rfl
      · exact hne

/-- Pieces inside of a body leave as many braces open as there are before the rest is read. -/
theorem readBody_append {ps : List Piece} {depth after : Nat} (h : level depth ps = some after)
    (qs : List Piece) : readBody depth (ps ++ qs) =
      (readBody after qs).map fun (inside, rest) => (ps ++ inside, rest) := by
  fun_induction level depth ps with
  | case1 depth =>
      obtain rfl := Option.some.inj h
      exact Option.map_id'.symm
  | case2 depth ps ih =>
      rw [List.cons_append, readBody, ih h, Option.map_map]
      rfl
  | case3 => cases h
  | case4 depth ps ih =>
      rw [List.cons_append, readBody, ih h, Option.map_map]
      rfl
  | case5 depth p ps hopening hfirst hclosing ih =>
      rw [List.cons_append, readBody.eq_def]
      split <;> simp_all [Function.comp_def]

theorem readBody_eq {ps : List Piece} (h : level 0 ps = some 0) (rest : List Piece) :
    readBody 0 (ps ++ .token .closingBrace :: rest) = some (ps, rest) := by
  rw [readBody_append h, readBody, Option.map_some]
  exact congrArg (fun inside => some (inside, rest)) (List.append_nil ps)

/-- **Definitions one after the other are read as they are.** -/
theorem readDefinitions_eq {ds : List Definition} (h : ∀ d ∈ ds, d.Complete) :
    ∀ n, ds.length ≤ n → readDefinitions n (ds.flatMap Definition.pieces) = some ds := by
  induction ds with
  | nil =>
      intro n _
      cases n <;> rfl
  | cons d ds ih =>
      intro n hn
      obtain ⟨hd, hds⟩ := List.forall_mem_cons.mp h
      cases n with
      | zero => exact absurd hn (Nat.not_succ_le_zero _)
      | succ n =>
          have hothers := ih hds n (Nat.le_of_succ_le_succ hn)
          rw [List.flatMap_cons, Definition.pieces, List.append_assoc, List.cons_append,
            List.append_assoc, List.cons_append, readDefinitions]
          · rw [readHead_eq hd.head, Option.bind_some]
            dsimp only
            rw [readBody_eq hd.body, Option.bind_some]
            rcases hd.last with hlast | hlast <;> rw [hlast] <;> simp [hothers]
          · cases d.head <;> exact nofun

/-! ## Units -/

/-- What is in a source file. -/
structure TranslationUnit where
  macros : List String
  definitions : List Definition
  deriving DecidableEq

/-- The translation unit of a text. -/
def readUnit (text : String) : Option TranslationUnit :=
  (preprocess [] [] (lines text.toList)).bind fun (macros, ps) =>
    (readDefinitions ps.length ps).map fun ds => ⟨macros, ds⟩

/-- **Lines that are compiled as definitions are a unit of these.** -/
theorem readUnit_eq {text : String} {ls : List (List Char)} {macros : List String}
    {ds : List Definition} (htext : text.toList = ls.flatMap (· ++ ['\n']))
    (h : Compiles [] ls macros (ds.flatMap Definition.pieces)) (hds : ∀ d ∈ ds, d.Complete) :
    readUnit text = some ⟨macros, ds⟩ := by
  have hread := h.read []
  rw [List.append_nil, preprocess, if_pos (by rfl), Option.map_some] at hread
  dsimp only at hread
  rw [List.append_nil] at hread
  have hlength : ds.length ≤ (ds.flatMap Definition.pieces).length := by
    have hsum := List.length_le_sum_of_one_le (ds.map fun d => d.pieces.length) fun n hn => by
      obtain ⟨d, _, rfl⟩ := List.mem_map.mp hn
      rw [Definition.pieces, List.length_append, List.length_cons]
      omega
    rwa [List.length_map, ← List.length_flatMap] at hsum
  rw [readUnit, htext, lines_flatMap h.lines, hread, Option.bind_some]
  dsimp only
  rw [readDefinitions_eq hds _ hlength]
  rfl

/-- The name that a head declares: the word before parameters or a length. -/
def declared : List Token → Option String
  | .word w :: .opening :: _ => some w
  | .word w :: .openingBracket :: _ => some w
  | _ :: ts => declared ts
  | [] => none

theorem declared_cons (t : Token) {ts : List Token}
    (h : ts.head? ≠ some .opening ∧ ts.head? ≠ some .openingBracket) :
    declared (t :: ts) = declared ts := by
  cases ts with
  | nil => cases t <;> rfl
  | cons u ts =>
      rw [declared]
      · rintro _ _ _ ⟨⟩
        exact h.1 rfl
      · rintro _ _ _ ⟨⟩
        exact h.2 rfl

/-- The first parenthesis stands behind the name. -/
theorem declared_append {ts : List Token} (h : ∀ t ∈ ts, t ≠ .opening ∧ t ≠ .openingBracket)
    (name : String) (us : List Token) :
    declared (ts ++ .word name :: .opening :: us) = some name := by
  induction ts with
  | nil => rfl
  | cons t ts ih =>
      obtain ⟨_, hts⟩ := List.forall_mem_cons.mp h
      rw [List.cons_append, declared_cons, ih hts]
      cases ts with
      | nil => exact ⟨nofun, nofun⟩
      | cons u ts =>
          obtain ⟨hu, _⟩ := List.forall_mem_cons.mp hts
          exact ⟨fun heq => hu.1 (Option.some.inj heq), fun heq => hu.2 (Option.some.inj heq)⟩

/-- What is defined has a name that other units do not see. -/
def Definition.isStatic (d : Definition) : Bool := d.head.head? == some (.word "static")

namespace TranslationUnit

/-- The names that a unit defines for itself. -/
def internal (unit : TranslationUnit) : List String :=
  (unit.definitions.filter Definition.isStatic).filterMap fun d => declared d.head

/-- The names that a unit defines for all units that are linked. -/
def external (unit : TranslationUnit) : List String :=
  (unit.definitions.filter fun d => !d.isStatic).filterMap fun d => declared d.head

/-- What is between the braces of the definition of a name. -/
def body? (unit : TranslationUnit) (name : String) : Option (List Piece) :=
  (unit.definitions.find? fun d => declared d.head == some name).map Definition.body

end TranslationUnit

end C

end ExplicitOde
