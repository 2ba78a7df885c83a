import ExplicitOde.Formula.Problem
import ExplicitOde.Scalar.Basic
import ExplicitOde.Text.Blank
import ExplicitOde.Text.Identifier

/-!
# Tokens of formulas

A formula is cut into numbers, identifiers and marks, each as long as possible; blanks separate
tokens and are dropped. A number begins with a digit or a point and runs over digits, points and
the letter `e`, and over a sign directly after that letter; the run must be a decimal numeral.
-/

namespace ExplicitOde

/-- A token of a formula over numbers `α`. -/
inductive Token (α : Type) where
  | number (value : α)
  | name (text : String)
  | mark (m : Mark)
  deriving DecidableEq, Repr

/-- A token with the offset of its first byte. -/
abbrev Placed (α : Type) := Token α × Nat

/-- The number of bytes of a row of characters in UTF-8. -/
def byteLength (cs : List Char) : Nat :=
  (cs.map Char.utf8Size).foldr (· + ·) 0

/-- A number begins with a digit or a point. -/
def isNumberStart (c : Char) : Bool :=
  c.isDigit || c == '.'

/-- The run of characters of a number, and what follows. A sign belongs to the run directly after
the letter `e`, as `afterE` tells. -/
def numberRun (afterE : Bool) : List Char → List Char × List Char
  | [] => ([], [])
  | c :: cs =>
    let isE := c == 'e' || c == 'E'
    if isNumberStart c || isE || (afterE && (c == '+' || c == '-')) then
      let (run, rest) := numberRun isE cs
      (c :: run, rest)
    else ([], c :: cs)

theorem numberRun_append (afterE : Bool) (cs : List Char) :
    (numberRun afterE cs).1 ++ (numberRun afterE cs).2 = cs := by
  fun_induction numberRun afterE cs <;> simp_all

theorem numberRun_rest_lt {c : Char} (cs : List Char) (h : isNumberStart c = true) :
    (numberRun false (c :: cs)).2.length < (c :: cs).length := by
  have split := congrArg List.length (numberRun_append (c == 'e' || c == 'E') cs)
  simp only [List.length_append] at split
  simp only [numberRun, h, Bool.true_or, if_true, List.length_cons]
  omega

/-- The run of characters of an identifier, and what follows. -/
def nameRun (cs : List Char) : List Char × List Char :=
  (cs.takeWhile isNameRest, cs.dropWhile isNameRest)

/-- A problem and its position. -/
abbrev Located := FormulaProblem × Nat

variable {α : Type} [Scalar α]

/-- The tokens of a row of characters that begins at an offset. -/
def scan (offset : Nat) : List Char → Except Located (List (Placed α))
  | [] => .ok []
  | c :: cs =>
    if isBlank c then scan (offset + c.utf8Size) cs
    else if h : isNumberStart c = true then
      have := numberRun_rest_lt cs h
      let run := numberRun false (c :: cs)
      match Decimal.read run.1 with
      | none => .error (.invalidNumber (String.ofList run.1), offset)
      | some d =>
        match scan (offset + byteLength run.1) run.2 with
        | .error e => .error e
        | .ok tokens => .ok ((.number (Scalar.ofDecimal d), offset) :: tokens)
    else if isNameStart c then
      have := (List.dropWhile_suffix isNameRest (l := cs)).length_le
      let run := nameRun cs
      match scan (offset + byteLength (c :: run.1)) run.2 with
      | .error e => .error e
      | .ok tokens => .ok ((.name (String.ofList (c :: run.1)), offset) :: tokens)
    else
      match Mark.ofChar? c with
      | none => .error (.unexpectedCharacter c, offset)
      | some m =>
        match scan (offset + c.utf8Size) cs with
        | .error e => .error e
        | .ok tokens => .ok ((.mark m, offset) :: tokens)
termination_by cs => cs.length
decreasing_by all_goals simp_all [nameRun]; try omega

/-- The tokens of a text with their offsets, or the first problem. -/
def tokenize (text : String) : Except FormulaError (List (Placed α)) :=
  match scan 0 text.toList with
  | .ok tokens => .ok tokens
  | .error (problem, position) => .error ⟨text, position, problem⟩

end ExplicitOde
