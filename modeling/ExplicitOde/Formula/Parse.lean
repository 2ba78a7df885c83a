import ExplicitOde.Formula.Basic
import ExplicitOde.Formula.Token

/-!
# Reading formulas

The grammar, from the loosest binding to the tightest:

    sum     := product (('+' | '-') product)*
    product := unary (('*' | '/') unary)*
    unary   := ('-' | '+') unary | power
    power   := primary ('^' unary)?
    primary := number | name | name '(' ')' | name '(' sum (',' sum)* ')' | '(' sum ')'

One function for each rule reads from the front of a row of tokens. Sums and products group to the
left, powers to the right; a sign binds looser than the power to its right, and an exponent may
have a sign. Every function consumes a token, so `Parsed` records that fewer are left.
-/

namespace ExplicitOde

variable {α : Type}

/-- Something read from the front of fewer than `bound` tokens, and the tokens after it. -/
structure Parsed (α β : Type) (bound : Nat) where
  value : β
  rest : List (Placed α)
  shorter : rest.length < bound

/-- What was read, as part of a longer row. -/
def Parsed.widen {β : Type} {m n : Nat} (p : Parsed α β m) (h : m ≤ n) : Parsed α β n :=
  ⟨p.value, p.rest, Nat.lt_of_lt_of_le p.shorter h⟩

/-- The offset where a problem with the first of some tokens shows; `stop` is the end of the
text. -/
def positionOf (stop : Nat) : List (Placed α) → Nat
  | [] => stop
  | (_, offset) :: _ => offset

/-- A problem with the first of some tokens. -/
def problemAt {β : Type} (stop : Nat) (tokens : List (Placed α)) (problem : FormulaProblem) :
    Except Located β :=
  .error (problem, positionOf stop tokens)

/-- The operation of a sign between summands. -/
def sumOp? : Mark → Option BinaryOp
  | .plus => some .add
  | .minus => some .sub
  | _ => none

/-- The operation of a sign between factors. -/
def productOp? : Mark → Option BinaryOp
  | .star => some .mul
  | .slash => some .div
  | _ => none

mutual

/-- Reads a sum. -/
def parseSum (stop : Nat) (tokens : List (Placed α)) :
    Except Located (Parsed α (Formula α) tokens.length) :=
  match parseProduct stop tokens with
  | .error e => .error e
  | .ok first =>
    have := first.shorter
    match parseSummands stop first.value first.rest with
    | .error e => .error e
    | .ok all => .ok (all.widen first.shorter)
termination_by (tokens.length, 5)

/-- Reads the summands after the first. -/
def parseSummands (stop : Nat) (lhs : Formula α) (tokens : List (Placed α)) :
    Except Located (Parsed α (Formula α) (tokens.length + 1)) :=
  match tokens with
  | (.mark m, offset) :: rest =>
    match sumOp? m with
    | none => .ok ⟨lhs, (.mark m, offset) :: rest, Nat.lt_succ_self _⟩
    | some op =>
      match parseProduct stop rest with
      | .error e => .error e
      | .ok next =>
        have := next.shorter
        match parseSummands stop (.binary op lhs next.value) next.rest with
        | .error e => .error e
        | .ok all => .ok (all.widen (by simp; omega))
  | tokens => .ok ⟨lhs, tokens, Nat.lt_succ_self _⟩
termination_by (tokens.length, 6)

/-- Reads a product. -/
def parseProduct (stop : Nat) (tokens : List (Placed α)) :
    Except Located (Parsed α (Formula α) tokens.length) :=
  match parseUnary stop tokens with
  | .error e => .error e
  | .ok first =>
    have := first.shorter
    match parseFactors stop first.value first.rest with
    | .error e => .error e
    | .ok all => .ok (all.widen first.shorter)
termination_by (tokens.length, 4)

/-- Reads the factors after the first. -/
def parseFactors (stop : Nat) (lhs : Formula α) (tokens : List (Placed α)) :
    Except Located (Parsed α (Formula α) (tokens.length + 1)) :=
  match tokens with
  | (.mark m, offset) :: rest =>
    match productOp? m with
    | none => .ok ⟨lhs, (.mark m, offset) :: rest, Nat.lt_succ_self _⟩
    | some op =>
      match parseUnary stop rest with
      | .error e => .error e
      | .ok next =>
        have := next.shorter
        match parseFactors stop (.binary op lhs next.value) next.rest with
        | .error e => .error e
        | .ok all => .ok (all.widen (by simp; omega))
  | tokens => .ok ⟨lhs, tokens, Nat.lt_succ_self _⟩
termination_by (tokens.length, 6)

/-- Reads a power with the signs before it. A plus sign leaves no trace. -/
def parseUnary (stop : Nat) (tokens : List (Placed α)) :
    Except Located (Parsed α (Formula α) tokens.length) :=
  match tokens with
  | (.mark .minus, _) :: rest =>
    match parseUnary stop rest with
    | .error e => .error e
    | .ok inner => .ok ⟨.neg inner.value, inner.rest, Nat.lt_succ_of_lt inner.shorter⟩
  | (.mark .plus, _) :: rest =>
    match parseUnary stop rest with
    | .error e => .error e
    | .ok inner => .ok (inner.widen (Nat.le_succ _))
  | tokens => parsePower stop tokens
termination_by (tokens.length, 3)

/-- Reads a primary with the exponent after it. -/
def parsePower (stop : Nat) (tokens : List (Placed α)) :
    Except Located (Parsed α (Formula α) tokens.length) :=
  match parsePrimary stop tokens with
  | .error e => .error e
  | .ok base =>
    have := base.shorter
    match h : base.rest with
    | (.mark .caret, _) :: rest =>
      have : rest.length < base.rest.length := by rw [h]; simp
      match parseUnary stop rest with
      | .error e => .error e
      | .ok exponent =>
        .ok ⟨.binary .pow base.value exponent.value, exponent.rest,
          Nat.lt_trans exponent.shorter (by omega)⟩
    | _ => .ok base
termination_by (tokens.length, 2)

/-- Reads a number, a name, a call or something in parentheses. -/
def parsePrimary (stop : Nat) (tokens : List (Placed α)) :
    Except Located (Parsed α (Formula α) tokens.length) :=
  match tokens with
  | (.number v, _) :: rest => .ok ⟨.number v, rest, Nat.lt_succ_self _⟩
  | (.name f, _) :: (.mark .leftParen, _) :: (.mark .rightParen, _) :: rest =>
    .ok ⟨.call f [], rest, by simp; omega⟩
  | (.name f, _) :: (.mark .leftParen, _) :: rest =>
    match parseArguments stop rest with
    | .error e => .error e
    | .ok args =>
      have := args.shorter
      match h : args.rest with
      | (.mark .rightParen, _) :: rest =>
        .ok ⟨.call f args.value, rest, by simp [h] at this ⊢; omega⟩
      | other => problemAt stop other .noClosingAfterArguments
  | (.name s, _) :: rest => .ok ⟨.name s, rest, Nat.lt_succ_self _⟩
  | (.mark .leftParen, _) :: rest =>
    match parseSum stop rest with
    | .error e => .error e
    | .ok inner =>
      have := inner.shorter
      match h : inner.rest with
      | (.mark .rightParen, _) :: rest =>
        .ok ⟨inner.value, rest, by simp [h] at this ⊢; omega⟩
      | other => problemAt stop other .noClosing
  | (.mark m, offset) :: _ => .error (.unexpectedMark m, offset)
  | [] => .error (.unexpectedEnd, stop)
termination_by (tokens.length, 1)

/-- Reads sums with commas between them. -/
def parseArguments (stop : Nat) (tokens : List (Placed α)) :
    Except Located (Parsed α (List (Formula α)) tokens.length) :=
  match parseSum stop tokens with
  | .error e => .error e
  | .ok first =>
    have := first.shorter
    match h : first.rest with
    | (.mark .comma, _) :: rest =>
      have : rest.length < first.rest.length := by rw [h]; simp
      match parseArguments stop rest with
      | .error e => .error e
      | .ok others =>
        .ok ⟨first.value :: others.value, others.rest, Nat.lt_trans others.shorter (by omega)⟩
    | _ => .ok ⟨[first.value], first.rest, first.shorter⟩
termination_by (tokens.length, 6)

end

/-- Reads a whole row of tokens as a sum. -/
def parseTokens (stop : Nat) (tokens : List (Placed α)) : Except Located (Formula α) :=
  if tokens.isEmpty then problemAt stop tokens .emptyFormula
  else
    match parseSum stop tokens with
    | .error e => .error e
    | .ok whole =>
      if whole.rest.isEmpty then .ok whole.value
      else problemAt stop whole.rest .trailingInput

/-- The formula that a text spells, or the first problem with it. -/
def parseFormula [Scalar α] (text : String) : Except FormulaError (Formula α) :=
  match tokenize text with
  | .error e => .error e
  | .ok tokens =>
    match parseTokens text.utf8ByteSize tokens with
    | .error (problem, position) => .error ⟨text, position, problem⟩
    | .ok formula => .ok formula

end ExplicitOde
