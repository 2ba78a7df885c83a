import ExplicitOde.Proofs.C.Token

/-!
# Expressions and statements of C

The part of C in which straight-line numeric programs are written, read from tokens as the grammar
of C has it: postfix before unary, unary before multiplicative, multiplicative before additive,
additive before inequality, inequality before the conditional, and assignment last. What is outside
this part is not read at all, so that what is read is read as C does.

Each level of the grammar is one function. What stands in parentheses or brackets is read by the
function for all expressions, which is counted down: no text nests deeper than it is long.
-/

namespace ExplicitOde

namespace C

/-- An expression. -/
inductive Term where
  | name (text : String)
  | number (text : String)
  | index (block place : Term)
  | call₁ (function : String) (a : Term)
  | call₂ (function : String) (a b : Term)
  | neg (a : Term)
  | binary (sign : Char) (a b : Term)
  | unequal (a b : Term)
  | conditional (condition a b : Term)
  deriving DecidableEq

/-- A statement. -/
inductive Stmt where
  | declare (names : List String)
  | assign (target value : Term)
  /-- Assignments under a condition. -/
  | when (condition : Term) (body : List (Term × Term))
  | result (value : Term)
  deriving DecidableEq

/-- The words that are no names. -/
def keywords : List String :=
  ["auto", "break", "case", "char", "const", "continue", "default", "do", "double", "else", "enum",
    "extern", "float", "for", "goto", "if", "inline", "int", "long", "register", "restrict",
    "return", "short", "signed", "sizeof", "static", "struct", "switch", "typedef", "union",
    "unsigned", "void", "volatile", "while", "_Alignas", "_Alignof", "_Atomic", "_Bool", "_Complex",
    "_Generic", "_Imaginary", "_Noreturn", "_Static_assert", "_Thread_local"]

/-- Reads an expression from the start of some tokens, and says what follows. -/
abbrev Reader := List Token → Option (Term × List Token)

/-- A name, a number or an expression in parentheses. -/
def primary (inner : Reader) : Reader
  | .word w :: rest => if w ∈ keywords then none else some (.name w, rest)
  | .number t :: rest => some (.number t, rest)
  | .opening :: rest =>
    match inner rest with
    | some (a, .closing :: rest') => some (a, rest')
    | _ => none
  | _ => none

/-- The arguments of a call, of which there are one or two. -/
def arguments (inner : Reader) (function : String) (ts : List Token) : Option (Term × List Token) :=
  match inner ts with
  | some (a, .closing :: rest) => some (.call₁ function a, rest)
  | some (a, .comma :: rest) =>
    match inner rest with
    | some (b, .closing :: rest') => some (.call₂ function a b, rest')
    | _ => none
  | _ => none

/-- Indices and arguments after an expression, one after the other. -/
def suffixes (inner : Reader) : Nat → Term → List Token → Option (Term × List Token)
  | 0, _, .openingBracket :: _ => none
  | n + 1, a, .openingBracket :: rest =>
    match inner rest with
    | some (i, .closingBracket :: rest') => suffixes inner n (.index a i) rest'
    | _ => none
  | n + 1, .name f, .opening :: rest =>
    match arguments inner f rest with
    | some (a, rest') => suffixes inner n a rest'
    | none => none
  | _, _, .opening :: _ => none
  | _, a, ts => some (a, ts)

/-- A primary expression with its indices and arguments. -/
def postfixed (inner : Reader) (ts : List Token) : Option (Term × List Token) :=
  match primary inner ts with
  | some (a, rest) => suffixes inner rest.length a rest
  | none => none

/-- Any number of minus signs, and a postfix expression. -/
def unary (inner : Reader) : Reader
  | .minus :: rest =>
    match unary inner rest with
    | some (a, rest') => some (.neg a, rest')
    | none => none
  | ts => postfixed inner ts

/-- Further operands after the first, combined from left to right. -/
def chain (combine : Token → Option (Term → Term → Term)) (operand : Reader) :
    Nat → Term → List Token → Option (Term × List Token)
  | _, a, [] => some (a, [])
  | n, a, t :: rest =>
    match combine t with
    | none => some (a, t :: rest)
    | some f =>
      match n, operand rest with
      | n + 1, some (b, rest') => chain combine operand n (f a b) rest'
      | _, _ => none

/-- Operands with signs between them. -/
def leftAssociative (combine : Token → Option (Term → Term → Term)) (operand : Reader)
    (ts : List Token) : Option (Term × List Token) :=
  match operand ts with
  | some (a, rest) => chain combine operand rest.length a rest
  | none => none

/-- The signs of products. -/
def multiplicative : Token → Option (Term → Term → Term)
  | .times => some (.binary '*')
  | .slash => some (.binary '/')
  | _ => none

/-- The signs of sums. -/
def additive : Token → Option (Term → Term → Term)
  | .plus => some (.binary '+')
  | .minus => some (.binary '-')
  | _ => none

/-- The sign of inequality. -/
def inequality : Token → Option (Term → Term → Term)
  | .unequal => some .unequal
  | _ => none

/-- Everything that binds tighter than a conditional. -/
def operation (inner : Reader) : Reader :=
  leftAssociative inequality
    (leftAssociative additive (leftAssociative multiplicative (unary inner)))

/-- An operation, or a choice between two expressions. -/
def choice (inner : Reader) (ts : List Token) : Option (Term × List Token) :=
  match operation inner ts with
  | some (c, .question :: rest) =>
    match inner rest with
    | some (a, .colon :: rest') =>
      match inner rest' with
      | some (b, rest'') => some (.conditional c a b, rest'')
      | none => none
    | _ => none
  | r => r

/-- Any expression that is no assignment. -/
def expression : Nat → Reader
  | 0 => fun _ => none
  | n + 1 => choice (expression n)

/-- An assignment with its semicolon. -/
def assignment (ts : List Token) : Option ((Term × Term) × List Token) :=
  match postfixed (expression ts.length) ts with
  | some (target, .assign :: rest) =>
    match expression ts.length rest with
    | some (value, .semicolon :: rest') => some ((target, value), rest')
    | _ => none
  | _ => none

/-- Assignments up to a closing brace. -/
def assignments : Nat → List Token → Option (List (Term × Term) × List Token)
  | _, .closingBrace :: rest => some ([], rest)
  | 0, _ => none
  | n + 1, ts =>
    match assignment ts with
    | some (a, rest) => (assignments n rest).map fun (as, rest') => (a :: as, rest')
    | none => none

/-- Names with commas between them and a semicolon at the end. -/
def names : List Token → Option (List String × List Token)
  | .word w :: .comma :: rest => (names rest).map fun (ws, rest') => (w :: ws, rest')
  | .word w :: .semicolon :: rest => some ([w], rest)
  | _ => none

/-- What follows the word `return`. -/
def resultStatement (ts : List Token) : Option (Stmt × List Token) :=
  match expression ts.length ts with
  | some (a, .semicolon :: rest) => some (.result a, rest)
  | _ => none

/-- What follows the word `if`. -/
def whenStatement : List Token → Option (Stmt × List Token)
  | .opening :: ts =>
    match expression ts.length ts with
    | some (c, .closing :: .openingBrace :: rest) =>
      (assignments rest.length rest).map fun (body, rest') => (.when c body, rest')
    | _ => none
  | _ => none

/-- A statement; `type` is the name of a type. -/
def statement (type : String) : List Token → Option (Stmt × List Token)
  | .word w :: rest =>
    if w = type then (names rest).map fun (ws, rest') => (.declare ws, rest')
    else if w = "return" then resultStatement rest
    else if w = "if" then whenStatement rest
    else (assignment (.word w :: rest)).map fun (a, rest') => (.assign a.1 a.2, rest')
  | _ => none

/-- Statements up to the end. -/
def statements (type : String) : Nat → List Token → Option (List Stmt)
  | _, [] => some []
  | 0, _ => none
  | n + 1, ts =>
    match statement type ts with
    | some (s, rest) => (statements type n rest).map (s :: ·)
    | none => none

/-- The statements of a text. -/
def read (type : String) (text : String) : Option (List Stmt) :=
  (lex text.toList).bind fun ts => statements type ts.length ts

/-! ## Reading operands -/

/-- No index and no arguments follow. -/
def Unindexed (ts : List Token) : Prop := ∀ t ∈ ts.head?, t ∉ [Token.openingBracket, .opening]

/-- No operation goes on here. -/
def Stops (ts : List Token) : Prop :=
  ∀ t ∈ ts.head?, t ∉ [Token.openingBracket, .opening, .times, .slash, .plus, .minus, .unequal,
    .question]

theorem Stops.unindexed {ts : List Token} (h : Stops ts) : Unindexed ts := by
  intro t ht hmem
  refine h t ht ?_
  simp only [List.mem_cons, List.not_mem_nil, or_false] at hmem ⊢
  tauto

theorem stops_cons {t : Token} {ts : List Token} (h : t ∉ [Token.openingBracket, .opening, .times,
    .slash, .plus, .minus, .unequal, .question]) : Stops (t :: ts) := by
  intro t' ht
  rw [List.head?_cons, Option.mem_some_iff] at ht
  exact ht ▸ h

/-- The tokens are a postfix expression, if neither index nor arguments follow. -/
def Reads (inner : Reader) (ts : List Token) (a : Term) : Prop :=
  ∀ rest, Unindexed rest → postfixed inner (ts ++ rest) = some (a, rest)

/-- The tokens are an expression, if no operation goes on after them. -/
def Complete (inner : Reader) (ts : List Token) (a : Term) : Prop :=
  ∀ rest, Stops rest → inner (ts ++ rest) = some (a, rest)

variable {inner : Reader} {a b c : Term} {ts us vs rest : List Token}

theorem suffixes_of_unindexed (h : Unindexed ts) (n : Nat) :
    suffixes inner n a ts = some (a, ts) := by
  unfold suffixes
  split
  · exact absurd List.mem_cons_self (h _ rfl)
  · exact absurd List.mem_cons_self (h _ rfl)
  · exact absurd (List.mem_cons_of_mem _ List.mem_cons_self) (h _ rfl)
  · exact absurd (List.mem_cons_of_mem _ List.mem_cons_self) (h _ rfl)
  · rfl

theorem reads_name {w : String} (hw : w ∉ keywords) : Reads inner [.word w] (.name w) := by
  intro rest hrest
  rw [postfixed, List.singleton_append, primary, if_neg hw]
  exact suffixes_of_unindexed hrest _

theorem reads_number (t : String) : Reads inner [.number t] (.number t) :=
  fun _ hrest => suffixes_of_unindexed hrest _

theorem reads_parentheses (h : Complete inner ts a) :
    Reads inner (.opening :: (ts ++ [.closing])) a := by
  intro rest hrest
  rw [postfixed, List.cons_append, List.append_assoc, List.singleton_append, primary,
    h _ (stops_cons (by decide))]
  exact suffixes_of_unindexed hrest _

theorem reads_call₁ {f : String} (hf : f ∉ keywords) (h : Complete inner ts a) :
    Reads inner (.word f :: .opening :: (ts ++ [.closing])) (.call₁ f a) := by
  intro rest hrest
  rw [postfixed, List.cons_append, primary, if_neg hf, List.cons_append, List.append_assoc,
    List.singleton_append]
  dsimp only [List.length_cons]
  rw [suffixes, arguments, h _ (stops_cons (by decide))]
  exact suffixes_of_unindexed hrest _

theorem reads_call₂ {f : String} (hf : f ∉ keywords) (ha : Complete inner ts a)
    (hb : Complete inner us b) :
    Reads inner (.word f :: .opening :: (ts ++ .comma :: (us ++ [.closing]))) (.call₂ f a b) := by
  intro rest hrest
  rw [postfixed, List.cons_append, primary, if_neg hf, List.cons_append, List.append_assoc,
    List.cons_append, List.append_assoc, List.singleton_append]
  dsimp only [List.length_cons]
  rw [suffixes, arguments, ha _ (stops_cons (by decide))]
  dsimp only
  rw [hb _ (stops_cons (by decide))]
  exact suffixes_of_unindexed hrest _

/-- One index after a name. -/
theorem reads_index {w : String} (hw : w ∉ keywords) (h : Complete inner ts a) :
    Reads inner (.word w :: .openingBracket :: (ts ++ [.closingBracket])) (.index (.name w) a) := by
  intro rest hrest
  rw [postfixed, List.cons_append, primary, if_neg hw, List.cons_append, List.append_assoc,
    List.singleton_append]
  dsimp only [List.length_cons]
  rw [suffixes, h _ (stops_cons (by decide))]
  exact suffixes_of_unindexed hrest _

/-- Two indices after a name. -/
theorem reads_index₂ {w : String} (hw : w ∉ keywords) (ha : Complete inner ts a)
    (hb : Complete inner us b) :
    Reads inner (.word w :: .openingBracket :: (ts ++ .closingBracket :: .openingBracket ::
      (us ++ [.closingBracket]))) (.index (.index (.name w) a) b) := by
  intro rest hrest
  rw [postfixed, List.cons_append, primary, if_neg hw, List.cons_append, List.append_assoc,
    List.cons_append, List.cons_append, List.append_assoc, List.singleton_append]
  dsimp only [List.length_cons]
  rw [suffixes, ha _ (stops_cons (by decide))]
  dsimp only
  rw [List.length_append, List.length_cons, ← Nat.add_assoc, suffixes,
    hb _ (stops_cons (by decide))]
  exact suffixes_of_unindexed hrest _

/-! ## Reading operations -/

/-- A postfix expression does not begin with a minus sign. -/
theorem Reads.unary (h : Reads inner ts a) (hrest : Unindexed rest) :
    unary inner (ts ++ rest) = some (a, rest) := by
  have hread := h rest hrest
  unfold C.unary
  split
  · rename_i hminus
    rw [hminus] at hread
    exact absurd hread (by simp [postfixed, primary])
  · exact hread

theorem unary_neg (h : Reads inner ts a) (hrest : Unindexed rest) :
    C.unary inner (.minus :: (ts ++ rest)) = some (.neg a, rest) := by
  rw [C.unary, h.unary hrest]

/-- A chain ends before what is none of its signs. -/
theorem chain_of_none {combine : Token → Option (Term → Term → Term)} {operand : Reader}
    (h : ∀ t ∈ ts.head?, combine t = none) (n : Nat) :
    chain combine operand n a ts = some (a, ts) := by
  cases ts with
  | nil => rw [chain]
  | cons t ts => rw [chain, h t rfl]

theorem leftAssociative_of_none {combine : Token → Option (Term → Term → Term)} {operand : Reader}
    (hread : operand ts = some (a, rest)) (h : ∀ t ∈ rest.head?, combine t = none) :
    leftAssociative combine operand ts = some (a, rest) := by
  rw [leftAssociative, hread]
  exact chain_of_none h _

/-- Two operands with a sign between them. -/
theorem leftAssociative_pair {combine : Token → Option (Term → Term → Term)} {operand : Reader}
    {t : Token} {f : Term → Term → Term} (hfirst : operand ts = some (a, t :: us))
    (hsign : combine t = some f) (hsecond : operand us = some (b, rest))
    (h : ∀ t ∈ rest.head?, combine t = none) :
    leftAssociative combine operand ts = some (f a b, rest) := by
  rw [leftAssociative, hfirst]
  dsimp only [List.length_cons]
  rw [chain, hsign]
  dsimp only
  rw [hsecond]
  exact chain_of_none h _

/-- What stops operations stops each of them. -/
theorem Stops.none (h : Stops rest) :
    (∀ t ∈ rest.head?, multiplicative t = none) ∧ (∀ t ∈ rest.head?, additive t = none) ∧
      ∀ t ∈ rest.head?, inequality t = none := by
  refine ⟨?_, ?_, ?_⟩ <;>
  · intro t ht
    have hstop := h t ht
    cases t <;> first | rfl | exact absurd hstop (by decide)

/-- What is read as an operation before the end is an expression. -/
theorem choice_of_operation (hread : operation inner ts = some (a, rest)) (hrest : Stops rest) :
    choice inner ts = some (a, rest) := by
  rw [choice, hread]
  cases rest with
  | nil => rfl
  | cons t rest =>
      have hstop := hrest t rfl
      cases t <;> first | rfl | exact absurd hstop (by decide)

theorem complete_of_unary (h : ∀ rest, Stops rest → C.unary inner (ts ++ rest) = some (a, rest)) :
    Complete (choice inner) ts a := by
  intro rest hrest
  obtain ⟨hproduct, hsum, hunequal⟩ := hrest.none
  refine choice_of_operation ?_ hrest
  exact leftAssociative_of_none (leftAssociative_of_none (leftAssociative_of_none (h rest hrest)
    hproduct) hsum) hunequal

theorem Reads.complete (h : Reads inner ts a) : Complete (choice inner) ts a :=
  complete_of_unary fun _ hrest => h.unary hrest.unindexed

theorem complete_neg (h : Reads inner ts a) : Complete (choice inner) (.minus :: ts) (.neg a) :=
  complete_of_unary fun _ hrest => unary_neg h hrest.unindexed

/-- A product or a quotient of two operands. -/
theorem complete_product (ha : Reads inner ts a) (hb : Reads inner us b) {t : Token} {sign : Char}
    (hsign : multiplicative t = some (.binary sign)) (ht : t ∉ [Token.openingBracket, .opening]) :
    Complete (choice inner) (ts ++ t :: us) (.binary sign a b) := by
  intro rest hrest
  obtain ⟨hproduct, hsum, hunequal⟩ := hrest.none
  have hunindexed : Unindexed (t :: (us ++ rest)) := by
    intro t' ht'
    rw [List.head?_cons, Option.mem_some_iff] at ht'
    exact ht' ▸ ht
  refine choice_of_operation ?_ hrest
  rw [List.append_assoc]
  exact leftAssociative_of_none (leftAssociative_of_none (leftAssociative_pair
    (ha.unary hunindexed) hsign (hb.unary hrest.unindexed) hproduct) hsum) hunequal

/-- A sum or a difference of two operands. -/
theorem complete_sum (ha : Reads inner ts a) (hb : Reads inner us b) {t : Token} {sign : Char}
    (hsign : additive t = some (.binary sign)) (hother : multiplicative t = none)
    (ht : t ∉ [Token.openingBracket, .opening]) :
    Complete (choice inner) (ts ++ t :: us) (.binary sign a b) := by
  intro rest hrest
  obtain ⟨hproduct, hsum, hunequal⟩ := hrest.none
  have hhead : ∀ t' ∈ (t :: (us ++ rest)).head?, t' = t := fun t' ht' => by
    rw [List.head?_cons, Option.mem_some_iff] at ht'
    exact ht'.symm
  have hunindexed : Unindexed (t :: (us ++ rest)) := fun t' ht' => hhead t' ht' ▸ ht
  refine choice_of_operation ?_ hrest
  rw [List.append_assoc]
  refine leftAssociative_of_none (leftAssociative_pair (leftAssociative_of_none
    (ha.unary hunindexed) fun t' ht' => hhead t' ht' ▸ hother) hsign
    (leftAssociative_of_none (hb.unary hrest.unindexed) hproduct) hsum) hunequal

/-- An inequality of two operands. -/
theorem complete_unequal (ha : Reads inner ts a) (hb : Reads inner us b) :
    Complete (choice inner) (ts ++ .unequal :: us) (.unequal a b) := by
  intro rest hrest
  obtain ⟨hproduct, hsum, hunequal⟩ := hrest.none
  have hhead : ∀ t' ∈ (Token.unequal :: (us ++ rest)).head?, t' = .unequal := fun t' ht' => by
    rw [List.head?_cons, Option.mem_some_iff] at ht'
    exact ht'.symm
  have hunindexed : Unindexed (.unequal :: (us ++ rest)) := fun t' ht' => hhead t' ht' ▸ by decide
  refine choice_of_operation ?_ hrest
  rw [List.append_assoc]
  exact leftAssociative_pair (leftAssociative_of_none (leftAssociative_of_none
    (ha.unary hunindexed) fun t' ht' => hhead t' ht' ▸ rfl) fun t' ht' => hhead t' ht' ▸ rfl) rfl
    (leftAssociative_of_none (leftAssociative_of_none (hb.unary hrest.unindexed) hproduct) hsum)
    hunequal

/-- A choice between two expressions. -/
theorem complete_conditional (hc : Reads inner ts c) (ha : Complete inner us a)
    (hb : Complete inner vs b) :
    Complete (choice inner) (ts ++ .question :: (us ++ .colon :: vs)) (.conditional c a b) := by
  intro rest hrest
  have hhead : ∀ t ∈ (Token.question :: (us ++ .colon :: (vs ++ rest))).head?, t = .question :=
    fun t ht => by
      rw [List.head?_cons, Option.mem_some_iff] at ht
      exact ht.symm
  have hcondition : operation inner (ts ++ .question :: (us ++ .colon :: (vs ++ rest))) =
      some (c, .question :: (us ++ .colon :: (vs ++ rest))) := by
    refine leftAssociative_of_none (leftAssociative_of_none (leftAssociative_of_none (hc.unary ?_)
      ?_) ?_) ?_
    · exact fun t ht => hhead t ht ▸ by decide
    · exact fun t ht => hhead t ht ▸ rfl
    · exact fun t ht => hhead t ht ▸ rfl
    · exact fun t ht => hhead t ht ▸ rfl
  rw [List.append_assoc, List.cons_append, List.append_assoc, List.cons_append, choice, hcondition]
  dsimp only
  rw [ha _ (stops_cons (by decide))]
  dsimp only
  rw [hb _ hrest]

/-! ## Reading statements -/

theorem Reads.ne_nil (h : Reads inner ts a) : ts ≠ [] := by
  rintro rfl
  have hread := h [] fun t ht => absurd ht (by simp)
  exact absurd hread (by simp [postfixed, primary])

/-- An assignment of an expression that nests no deeper than three levels. -/
theorem assignment_eq (ha : ∀ n, 3 ≤ n → Reads (expression n) ts a)
    (hb : ∀ n, 3 ≤ n → Complete (expression n) us b) (rest : List Token) :
    assignment (ts ++ .assign :: (us ++ .semicolon :: rest)) = some ((a, b), rest) := by
  have hts := List.length_pos_iff.mpr (ha 3 (by omega)).ne_nil
  have hlen : 3 ≤ (ts ++ .assign :: (us ++ .semicolon :: rest)).length := by
    simp only [List.length_append, List.length_cons]
    omega
  have hassign : Unindexed (.assign :: (us ++ .semicolon :: rest)) :=
    (stops_cons (by decide)).unindexed
  rw [assignment, ha _ hlen _ hassign]
  dsimp only
  rw [hb _ hlen _ (stops_cons (by decide))]

/-- No list of tokens among these is empty, so that there are at least as many tokens. -/
theorem length_le_flatten {β : Type} {R : List Token → β → Prop} {tss : List (List Token)}
    {bs : List β} (h : List.Forall₂ R tss bs) (hne : ∀ ts b, R ts b → ts ≠ []) :
    tss.length ≤ tss.flatten.length := by
  induction h with
  | nil => exact Nat.le_refl _
  | @cons ts b tss bs hone _ ih =>
      have hpos := List.length_pos_iff.mpr (hne ts b hone)
      rw [List.flatten_cons, List.length_append, List.length_cons]
      omega

/-- The tokens are an assignment, whatever follows. -/
structure IsAssignment (ts : List Token) (p : Term × Term) : Prop where
  head_ne : ts.head? ≠ some .closingBrace
  read : ∀ rest, assignment (ts ++ rest) = some (p, rest)

theorem isAssignment (ha : ∀ n, 3 ≤ n → Reads (expression n) ts a)
    (hb : ∀ n, 3 ≤ n → Complete (expression n) us b) :
    IsAssignment (ts ++ .assign :: (us ++ [.semicolon])) (a, b) where
  head_ne := by
    have hread := ha 3 (Nat.le_refl 3) [] fun t ht => absurd ht (by simp)
    cases ts with
    | nil => exact absurd rfl (ha 3 (Nat.le_refl 3)).ne_nil
    | cons t ts =>
        intro hbrace
        injection hbrace with hbrace
        rw [hbrace] at hread
        exact absurd hread (by simp [postfixed, primary])
  read rest := by
    have hread := assignment_eq ha hb rest
    simp only [List.append_assoc, List.cons_append, List.nil_append] at hread ⊢
    exact hread

theorem IsAssignment.ne_nil {p : Term × Term} (h : IsAssignment ts p) : ts ≠ [] := by
  rintro rfl
  exact absurd (h.read []) (by simp [assignment, postfixed, primary])

/-- Assignments that follow each other, up to a brace. -/
theorem assignments_eq {tss : List (List Token)} {body : List (Term × Term)}
    (h : List.Forall₂ IsAssignment tss body) (rest : List Token) :
    ∀ n, tss.length ≤ n →
      assignments n (tss.flatten ++ .closingBrace :: rest) = some (body, rest) := by
  induction h with
  | nil =>
      intro n _
      rw [List.flatten_nil, List.nil_append, assignments]
  | @cons ts p tss body hone _ ih =>
      intro n hn
      cases n with
      | zero => exact absurd hn (Nat.not_succ_le_zero _)
      | succ n =>
          rw [List.flatten_cons, List.append_assoc]
          cases ts with
          | nil => exact absurd rfl hone.ne_nil
          | cons t ts =>
              rw [List.cons_append, assignments]
              · rw [← List.cons_append, hone.read]
                dsimp only
                rw [ih n (Nat.le_of_succ_le_succ hn)]
                rfl
              · -- an assignment does not begin with the brace that ends them all
                intro rest' h
                injection h with h _
                exact hone.head_ne (by rw [h, List.head?_cons])

/-- A row of names as tokens. -/
def nameTokens : List String → List Token
  | [] => []
  | [w] => [.word w, .semicolon]
  | w :: ws => .word w :: .comma :: nameTokens ws

theorem names_eq : ∀ {ws : List String}, ws ≠ [] → ∀ rest,
    names (nameTokens ws ++ rest) = some (ws, rest) := by
  intro ws
  induction ws with
  | nil => exact fun h => absurd rfl h
  | cons w ws ih =>
      intro _ rest
      cases ws with
      | nil => rfl
      | cons v ws =>
          rw [nameTokens, List.cons_append, List.cons_append, names, ih (List.cons_ne_nil v ws)]
          · rfl
          · exact List.cons_ne_nil v ws

/-- The tokens are a statement, whatever follows. -/
def IsStatement (type : String) (ts : List Token) (s : Stmt) : Prop :=
  ∀ rest, statement type (ts ++ rest) = some (s, rest)

theorem IsStatement.ne_nil {type : String} {s : Stmt} (h : IsStatement type ts s) : ts ≠ [] := by
  rintro rfl
  exact absurd (h []) (by simp [statement])

theorem isStatement_declare {type : String} {ws : List String} (h : ws ≠ []) :
    IsStatement type (.word type :: nameTokens ws) (.declare ws) := by
  intro rest
  rw [List.cons_append, statement, if_pos rfl, names_eq h]
  rfl

theorem isStatement_result {type : String} (htype : type ≠ "return")
    (h : ∀ n, 1 ≤ n → Complete (expression n) ts a) :
    IsStatement type (.word "return" :: (ts ++ [.semicolon])) (.result a) := by
  intro rest
  have hlen : 1 ≤ (ts ++ .semicolon :: rest).length := by
    rw [List.length_append, List.length_cons]
    omega
  rw [List.cons_append, statement, if_neg htype.symm, if_pos rfl, List.append_assoc,
    List.singleton_append, resultStatement, h _ hlen _ (stops_cons (by decide))]

theorem isStatement_assign {type w : String}
    (hw : w ∉ ["return", "if"]) (htype : w ≠ type)
    (ha : ∀ n, 3 ≤ n → Reads (expression n) (.word w :: ts) a)
    (hb : ∀ n, 3 ≤ n → Complete (expression n) us b) :
    IsStatement type (.word w :: (ts ++ .assign :: (us ++ [.semicolon]))) (.assign a b) := by
  intro rest
  simp only [List.mem_cons, List.not_mem_nil, or_false, not_or] at hw
  have hread := assignment_eq ha hb rest
  simp only [List.cons_append, List.append_assoc, List.nil_append] at hread ⊢
  rw [statement, if_neg htype, if_neg hw.1, if_neg hw.2, hread]
  rfl

theorem isStatement_when {type : String} (htype : type ≠ "if")
    (hc : ∀ n, 2 ≤ n → Complete (expression n) ts c) {tss : List (List Token)}
    {body : List (Term × Term)} (h : List.Forall₂ IsAssignment tss body) :
    IsStatement type (.word "if" :: .opening :: (ts ++ .closing :: .openingBrace ::
      (tss.flatten ++ [.closingBrace]))) (.when c body) := by
  intro rest
  have hlen : 2 ≤ (ts ++ .closing :: .openingBrace ::
      (tss.flatten ++ .closingBrace :: rest)).length := by
    simp only [List.length_append, List.length_cons]
    omega
  have hcount : tss.length ≤ (tss.flatten ++ .closingBrace :: rest).length := by
    rw [List.length_append]
    exact Nat.le_add_right_of_le (length_le_flatten h fun _ _ h => h.ne_nil)
  simp only [List.cons_append, List.append_assoc, List.nil_append]
  rw [statement, if_neg htype.symm, if_neg (by decide), if_pos rfl, whenStatement,
    hc _ hlen _ (stops_cons (by decide))]
  dsimp only
  rw [assignments_eq h rest _ hcount]
  rfl

/-- Statements that follow each other. -/
theorem statements_eq {type : String} {tss : List (List Token)} {ss : List Stmt}
    (h : List.Forall₂ (IsStatement type) tss ss) :
    ∀ n, tss.length ≤ n → statements type n tss.flatten = some ss := by
  induction h with
  | nil =>
      intro n _
      cases n <;> rfl
  | @cons ts s tss ss hone _ ih =>
      intro n hn
      cases n with
      | zero => exact absurd hn (Nat.not_succ_le_zero _)
      | succ n =>
          cases ts with
          | nil => exact absurd rfl hone.ne_nil
          | cons t ts =>
              rw [List.flatten_cons, List.cons_append, statements, ← List.cons_append, hone]
              · dsimp only
                rw [ih n (Nat.le_of_succ_le_succ hn)]
                rfl
              · exact List.cons_ne_nil t _

/-- **A text whose tokens are statements, one after the other, is read as these.** -/
theorem read_eq {type text : String} {tss : List (List Token)} {ss : List Stmt}
    (hlex : lex text.toList = some tss.flatten) (h : List.Forall₂ (IsStatement type) tss ss) :
    read type text = some ss := by
  rw [read, hlex, Option.bind_some]
  exact statements_eq h _ (length_le_flatten h fun _ _ h => h.ne_nil)

end C

end ExplicitOde
