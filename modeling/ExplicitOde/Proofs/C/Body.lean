import ExplicitOde.Proofs.C.Unit

/-!
# What definitions say

The body of a definition as data: the entries of an array, the constant that a function returns, the
cases of a choice by number, or the statements of a program. What is written for numbers and for
cases is read as these again.

Of a program, the elements of blocks that it names count: `w[i][k]` anywhere in it, and those that
it assigns to.
-/

namespace ExplicitOde

namespace C

/-- The value of a piece that is an integer constant. -/
def Piece.integer? : Piece → Option Nat
  | .token (.number text) => C.integer? text.toList
  | _ => none

/-- The piece of an integer that is written. -/
def integerPiece (n : Nat) : Piece := .token (.number (toString n))

theorem integer?_integerPiece (n : Nat) : (integerPiece n).integer? = some n := by
  rw [integerPiece, Piece.integer?, Nat.toString_eq_ofList_toDigits, String.toList_ofList,
    integer?_toDigits]

/-! ## Arrays -/

/-- A constant array of integers. -/
structure Table where
  name : String
  /-- The length that is declared. -/
  length : Nat
  entries : List Nat
  deriving DecidableEq

/-- Integers with commas between them. -/
def readIntegers : List Piece → Option (List Nat)
  | [p] => p.integer?.map ([·])
  | p :: .token .comma :: ps => p.integer?.bind fun n => (readIntegers ps).map (n :: ·)
  | _ => none

/-- The name and the length in the head of an array. -/
def readArray : List Token → Option (String × Nat)
  | [.word w, .openingBracket, .number n, .closingBracket, .assign] =>
    (integer? n.toList).map fun length => (w, length)
  | .word _ :: ts => readArray ts
  | _ => none

/-- The head of a function is not that of an array. -/
theorem readArray_append {ts : List Token} (h : ∀ t ∈ ts, t ≠ .openingBracket) (us : List Token) :
    readArray (ts ++ .opening :: us) = none := by
  induction ts with
  | nil => rfl
  | cons t ts ih =>
      obtain ⟨_, hts⟩ := List.forall_mem_cons.mp h
      have hnext : (ts ++ .opening :: us).head? ≠ some .openingBracket := by
        cases ts with
        | nil => exact nofun
        | cons u ts => exact fun heq => (List.forall_mem_cons.mp hts).1 (Option.some.inj heq)
      cases t with
      | word w =>
          rw [List.cons_append, readArray]
          · exact ih hts
          · exact fun n heq => hnext (heq ▸ rfl)
      | _ => rfl

/-- The array that is defined. -/
def Definition.table? (d : Definition) : Option Table := do
  let (name, length) ← readArray d.head
  let entries ← readIntegers d.body
  return ⟨name, length, entries⟩

/-- Integers as tokens. -/
def integerTokens : List Nat → List Token
  | [] => []
  | [n] => [.number (toString n)]
  | n :: ns => .number (toString n) :: .comma :: integerTokens ns

theorem readIntegers_eq : ∀ {ns : List Nat}, ns ≠ [] →
    readIntegers ((integerTokens ns).map .token) = some ns
  | [], h => absurd rfl h
  | [n], _ => by
      rw [integerTokens, List.map_singleton]
      exact congrArg (Option.map _) (integer?_integerPiece n)
  | n :: k :: ns, _ => by
      have hn : (Piece.token (.number (toString n))).integer? = some n := integer?_integerPiece n
      rw [integerTokens, List.map_cons, List.map_cons, readIntegers, hn, Option.bind_some,
        readIntegers_eq (List.cons_ne_nil k ns)]
      · rfl
      · exact List.cons_ne_nil k ns

/-! ## Functions that answer -/

/-- The constant that a body returns. -/
def readResult : List Piece → Option Nat
  | [.token (.word "return"), p, .token .semicolon] => p.integer?
  | _ => none

/-- The cases of a choice, each with its number and what is returned. There is a default, which
returns zero. -/
def readCases : List Piece → Option (List (Nat × Piece))
  | .token (.word "case") :: p :: .token .colon :: .token (.word "return") :: q ::
      .token .semicolon :: ps =>
    p.integer?.bind fun n => (readCases ps).map ((n, q) :: ·)
  | [.token (.word "default"), .token .colon, .token (.word "return"), .token (.number "0"),
      .token .semicolon, .token .closingBrace] => some []
  | _ => none

/-- The cases of a choice by the number `i`, which is all that a body consists of. -/
def readChoice : List Piece → Option (List (Nat × Piece))
  | .token (.word "switch") :: .token .opening :: .token (.word "i") :: .token .closing ::
      .token .openingBrace :: ps => readCases ps
  | _ => none

/-- The pieces of a case. -/
def casePieces (p : Nat × Piece) : List Piece :=
  [.token (.word "case"), integerPiece p.1, .token .colon, .token (.word "return"), p.2,
    .token .semicolon]

/-- The pieces behind the head of a choice. -/
def casesPieces (cases : List (Nat × Piece)) : List Piece :=
  cases.flatMap casePieces ++ [.token (.word "default"), .token .colon, .token (.word "return"),
    .token (.number "0"), .token .semicolon, .token .closingBrace]

/-- The pieces of a choice. -/
def choicePieces (cases : List (Nat × Piece)) : List Piece :=
  .token (.word "switch") :: .token .opening :: .token (.word "i") :: .token .closing ::
    .token .openingBrace :: casesPieces cases

theorem casesPieces_cons (p : Nat × Piece) (cases : List (Nat × Piece)) :
    casesPieces (p :: cases) = casePieces p ++ casesPieces cases := by
  rw [casesPieces, List.flatMap_cons, List.append_assoc]
  rfl

theorem readChoice_eq (cases : List (Nat × Piece)) :
    readChoice (choicePieces cases) = some cases := by
  rw [choicePieces, readChoice]
  induction cases with
  | nil => rfl
  | cons p cases ih =>
      rw [casesPieces_cons]
      show (integerPiece p.1).integer?.bind _ = _
      rw [integer?_integerPiece, Option.bind_some]
      exact congrArg (Option.map _) ih

/-- A choice closes the brace that it opens, if the answers are no braces. -/
theorem level_choicePieces {cases : List (Nat × Piece)}
    (h : ∀ p ∈ cases, ∀ depth, level depth [p.2] = some depth) :
    level 0 (choicePieces cases) = some 0 := by
  show level 1 (casesPieces cases) = some 0
  induction cases with
  | nil => rfl
  | cons p cases ih =>
      obtain ⟨hp, hcases⟩ := List.forall_mem_cons.mp h
      have hcase : level 1 (casePieces p) = level 1 [p.2, .token .semicolon] := rfl
      have hanswer : level 1 [p.2, .token .semicolon] = some 1 := by
        rw [← List.singleton_append, level_append, hp]
        rfl
      rw [casesPieces_cons, level_append, hcase, hanswer]
      exact ih hcases

/-! ## Programs -/

/-- The token that a piece is, if it is no string. -/
def Piece.token? : Piece → Option Token
  | .token t => some t
  | .quoted _ => none

/-- The statements of a body. -/
def readStatements (type : String) (ps : List Piece) : Option (List Stmt) :=
  (ps.mapM Piece.token?).bind fun ts => statements type ts.length ts

theorem readStatements_map (type : String) (ts : List Token) :
    readStatements type (ts.map .token) = statements type ts.length ts := by
  have htokens : (ts.map Piece.token).mapM Piece.token? = some ts := by
    induction ts with
    | nil => rfl
    | cons t ts ih =>
        rw [List.map_cons, List.mapM_cons, ih]
        rfl
  rw [readStatements, htokens, Option.bind_some]

/-- An expression and all that it consists of. -/
def Term.parts : Term → List Term
  | .name w => [.name w]
  | .number t => [.number t]
  | .index a b => .index a b :: (a.parts ++ b.parts)
  | .call₁ f a => .call₁ f a :: a.parts
  | .call₂ f a b => .call₂ f a b :: (a.parts ++ b.parts)
  | .neg a => .neg a :: a.parts
  | .binary sign a b => .binary sign a b :: (a.parts ++ b.parts)
  | .unequal a b => .unequal a b :: (a.parts ++ b.parts)
  | .conditional c a b => .conditional c a b :: (c.parts ++ a.parts ++ b.parts)

/-- All expressions in a statement. -/
def Stmt.parts : Stmt → List Term
  | .declare _ => []
  | .assign target value => target.parts ++ value.parts
  | .when condition body => condition.parts ++ body.flatMap fun (a, b) => a.parts ++ b.parts
  | .result value => value.parts

/-- What a statement assigns to. -/
def Stmt.targets : Stmt → List Term
  | .declare _ => []
  | .assign target _ => [target]
  | .when _ body => body.map Prod.fst
  | .result _ => []

/-- The value of an expression that is an integer constant. -/
def Term.integer? : Term → Option Nat
  | .number t => C.integer? t.toList
  | _ => none

/-- The places in an element of a block: `i` and `k` of `w[i][k]`. -/
def Term.element? (w : String) : Term → Option (Term × Term)
  | .index (.index (.name v) a) b => if v = w then some (a, b) else none
  | _ => none

end C

end ExplicitOde
