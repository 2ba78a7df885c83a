import ExplicitOde.Declaration.Basic
import ExplicitOde.Text.Blank
import ExplicitOde.Text.Identifier

/-!
# Valid declarations

A valid declaration names its model and its symbols by identifiers, no symbol twice, and has one
derivative, not blank, for every state. Strict validation also wants every control and parameter to
occur in some derivative as a word.
-/

namespace ExplicitOde

namespace Declaration

/-- How much is asked of a declaration. -/
inductive Strictness where
  | plain | strict
  deriving DecidableEq, Repr

/-- The names are identifiers, and none was seen before or occurs twice. -/
def checkSymbols (seen : List String) : List (Role × String) → Except DeclarationError Unit
  | [] => .ok ()
  | (role, name) :: symbols =>
    if !isIdentifier name then .error (.invalidSymbol role name)
    else if seen.contains name then .error (.repeatedSymbol name)
    else checkSymbols (name :: seen) symbols

/-- Every state has a derivative that is not blank. -/
def checkRates (d : Declaration) : Except DeclarationError Unit :=
  if d.rates.length ≠ d.x.length then .error (.rateCount d.x.length d.rates.length)
  else
    match d.rates.findIdx? allBlank with
    | some index => .error (.blankRate index)
    | none => .ok ()

/-- The words of a text: its longest runs of characters of identifiers. -/
def words (text : List Char) : List (List Char) :=
  match text with
  | [] => []
  | c :: rest =>
    if isNameRest c then
      (c :: rest.takeWhile isNameRest) :: words (rest.dropWhile isNameRest)
    else words rest
termination_by text.length
decreasing_by
  · exact Nat.lt_succ_of_le (List.dropWhile_sublist isNameRest).length_le
  · simp

/-- Every control and parameter is a word of some derivative. -/
def checkUse (d : Declaration) : Except DeclarationError Unit :=
  let used := d.rates.flatMap fun rate => words rate.toList
  match d.symbols.find? fun (role, name) => role ≠ .state ∧ !used.contains name.toList with
  | some (role, name) => .error (.unusedSymbol role name)
  | none => .ok ()

/-- The first rule that a declaration breaks, if there is one. -/
def validate (strictness : Strictness) (d : Declaration) : Except DeclarationError Unit := do
  if !isIdentifier d.name then
    throw (.invalidName d.name)
  if d.x.isEmpty then
    throw .missingStates
  checkSymbols [] d.symbols
  d.checkRates
  if strictness = .strict then
    d.checkUse

end Declaration

end ExplicitOde
