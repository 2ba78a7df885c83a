import ExplicitOde.Proofs.C.Constant
import ExplicitOde.Proofs.C.Syntax

/-!
# Running straight-line programs of C

What the statements of a function body do that has two parameters: `arg`, pointers to blocks of
numbers that are read, and `res`, pointers to blocks that are written; any pointer may be null.

The machine is strict. It goes on only where the standard says what happens, and beyond that it has
every local variable declared once and assigned once: it stops at a variable that is read before it
has a value, at a second declaration, at a second assignment, at a null pointer or a place outside a
block that is read or written, and at a function that the mathematical library does not have.

What numbers are and what arithmetic does is left open; `Meaning` says it.
-/

namespace ExplicitOde

namespace C

variable {β : Type}

/-- A meaning of constants, macros, arithmetic and the mathematical library in a type of values. -/
structure Meaning (β : Type) where
  /-- The value of a floating constant. -/
  constant : String → β
  /-- The value of a macro of the mathematical library. -/
  macroValue : String → β
  /-- An integer as a number. -/
  ofNat : Nat → β
  neg : β → β
  arithmetic : Char → β → β → β
  function : String → List β → β

/-- The blocks that the parameters point to: of those that are read the contents, of those that are
written the sizes. A pointer that is absent is null. -/
structure Memory (β : Type) where
  arg : List (Option (List β))
  res : List (Option Nat)

/-- What an expression can be. -/
inductive Value (β : Type) where
  | real (v : β)
  | int (n : Nat)
  /-- The array of pointers to blocks that are read. -/
  | sources
  /-- A pointer to a block that is read. -/
  | source (block : Option (List β))
  /-- The array of pointers to blocks that are written. -/
  | targets
  /-- A pointer to a block that is written, with its number and its size. -/
  | target (output : Nat) (size : Option Nat)

/-- A value as a number. -/
def Value.toReal? (meaning : Meaning β) : Value β → Option β
  | .real v => some v
  | .int n => some (meaning.ofNat n)
  | _ => none

/-- What is known of local variables: nothing, a declaration, or a value. -/
abbrev Locals (β : Type) := String → Option (Option β)

/-- The macros for which there are no constants. -/
def macros : List String := ["NAN", "INFINITY"]

/-- The functions of one number in the mathematical library, in double precision. -/
def unaryFunctions : List String :=
  ["sin", "cos", "tan", "asin", "acos", "atan", "sinh", "cosh", "tanh", "exp", "log", "sqrt"]

/-- A function of one number, in double or single precision. -/
def isUnaryFunction (f : String) : Bool :=
  f ∈ unaryFunctions || f ∈ unaryFunctions.map (· ++ "f")

/-- A function of two numbers, in double or single precision. -/
def isBinaryFunction (f : String) : Bool := f == "pow" || f == "powf"

/-- The element of an array of pointers, or of a block. -/
def element (memory : Memory β) : Value β → Value β → Option (Value β)
  | .sources, .int i => memory.arg[i]?.map .source
  | .targets, .int o => memory.res[o]?.map (.target o)
  | .source (some block), .int k => block[k]?.map .real
  | _, _ => none

/-- The value of a name. Local variables come before parameters. -/
def nameValue (meaning : Meaning β) (locals : Locals β) (w : String) : Option (Value β) :=
  match locals w with
  | some known => known.map .real
  | none =>
    if w = "arg" then some .sources
    else if w = "res" then some .targets
    else if w ∈ macros then some (.real (meaning.macroValue w))
    else none

/-- The macros are not hidden by local variables. -/
def MacrosFree (locals : Locals β) : Prop := ∀ w ∈ macros, locals w = none

theorem nameValue_macro {meaning : Meaning β} {locals : Locals β} (h : MacrosFree locals)
    {w : String} (hw : w ∈ macros) :
    nameValue meaning locals w = some (.real (meaning.macroValue w)) := by
  have hparameters : ∀ w ∈ macros, w ≠ "arg" ∧ w ≠ "res" := by decide
  rw [nameValue, h w hw]
  dsimp only
  rw [if_neg (hparameters w hw).1, if_neg (hparameters w hw).2, if_pos hw]

/-- The value of a constant. -/
def constantValue (meaning : Meaning β) (text : String) : Option (Value β) :=
  match integer? text.toList with
  | some n => some (.int n)
  | none => if isFloating text.toList then some (.real (meaning.constant text)) else none

/-- A numeral has its value as a floating constant. -/
theorem constantValue_numeral {meaning : Meaning β} {cs ending : List Char} (h : Numeral cs)
    (hending : FloatingEnding ending) : constantValue meaning (String.ofList (cs ++ ending)) =
      some (.real (meaning.constant (String.ofList (cs ++ ending)))) := by
  rw [constantValue, String.toList_ofList, h.integer?]
  dsimp only
  rw [h.isFloating hending, if_pos rfl]

/-- What is written for a natural number has it as its value. -/
theorem constantValue_toString {meaning : Meaning β} (n : Nat) :
    constantValue meaning (toString n) = some (.int n) := by
  rw [constantValue, Nat.toString_eq_ofList_toDigits, String.toList_ofList, integer?_toDigits]

/-- Whether a condition holds: pointers that are not null hold, and integers that are not zero. -/
def holds? : Value β → Option Bool
  | .source block => some block.isSome
  | .int n => some (n != 0)
  | _ => none

/-- The value of an expression. -/
def eval (meaning : Meaning β) (memory : Memory β) (locals : Locals β) : Term → Option (Value β)
  | .name w => nameValue meaning locals w
  | .number t => constantValue meaning t
  | .index a i =>
    match eval meaning memory locals a, eval meaning memory locals i with
    | some va, some vi => element memory va vi
    | _, _ => none
  | .call₁ f a =>
    match isUnaryFunction f, (eval meaning memory locals a).bind (·.toReal? meaning) with
    | true, some v => some (.real (meaning.function f [v]))
    | _, _ => none
  | .call₂ f a b =>
    match isBinaryFunction f, (eval meaning memory locals a).bind (·.toReal? meaning),
      (eval meaning memory locals b).bind (·.toReal? meaning) with
    | true, some v, some w => some (.real (meaning.function f [v, w]))
    | _, _, _ => none
  | .neg a =>
    match eval meaning memory locals a with
    | some (.real v) => some (.real (meaning.neg v))
    | _ => none
  | .binary sign a b =>
    match eval meaning memory locals a, eval meaning memory locals b with
    | some (.real v), some (.real w) => some (.real (meaning.arithmetic sign v w))
    | _, _ => none
  | .unequal a b =>
    match eval meaning memory locals a, eval meaning memory locals b with
    | some (.target _ size), some (.int 0) => some (.int (if size.isSome then 1 else 0))
    | _, _ => none
  | .conditional c a b =>
    match (eval meaning memory locals c).bind holds? with
    | some true => eval meaning memory locals a
    | some false => eval meaning memory locals b
    | none => none

/-- A number that is written: to which block, where in it, and the number. -/
structure Write (β : Type) where
  output : Nat
  place : Nat
  value : β

/-- The state of the machine: the local variables, and all that was written, in order. -/
structure State (β : Type) where
  locals : Locals β
  writes : List (Write β)

/-- Declares a variable that was not declared before. -/
def declare (locals : Locals β) (w : String) : Option (Locals β) :=
  match locals w with
  | none => some fun v => if v = w then some none else locals v
  | some _ => none

/-- Gives a variable that was declared its one value. -/
def setLocal (locals : Locals β) (w : String) (v : β) : Option (Locals β) :=
  match locals w with
  | some none => some fun u => if u = w then some (some v) else locals u
  | _ => none

/-- Writes to a place inside a block. -/
def store (s : State β) (v : β) : Value β → Value β → Option (State β)
  | .target output (some size), .int place =>
    if place < size then some { s with writes := s.writes ++ [⟨output, place, v⟩] } else none
  | _, _ => none

/-- Assigns to a variable or to an element of a block. -/
def assign (meaning : Meaning β) (memory : Memory β) (s : State β) (target value : Term) :
    Option (State β) :=
  match (eval meaning memory s.locals value).bind (·.toReal? meaning), target with
  | some v, .name w => (setLocal s.locals w v).map fun locals => { s with locals := locals }
  | some v, .index a i =>
    match eval meaning memory s.locals a, eval meaning memory s.locals i with
    | some va, some vi => store s v va vi
    | _, _ => none
  | _, _ => none

/-- What a statement does that is no `return`. -/
def step (meaning : Meaning β) (memory : Memory β) (s : State β) : Stmt → Option (State β)
  | .declare ws => (ws.foldlM declare s.locals).map fun locals => { s with locals := locals }
  | .assign target value => assign meaning memory s target value
  | .when c body =>
    match (eval meaning memory s.locals c).bind holds? with
    | some true => body.foldlM (fun s p => assign meaning memory s p.1 p.2) s
    | some false => some s
    | none => none
  | .result _ => none

/-- Runs statements up to a `return`: all that was written, and the integer that is returned. -/
def run (meaning : Meaning β) (memory : Memory β) (s : State β) :
    List Stmt → Option (List (Write β) × Nat)
  | [] => none
  | .result a :: _ =>
    match eval meaning memory s.locals a with
    | some (.int n) => some (s.writes, n)
    | _ => none
  | stmt :: rest =>
    match step meaning memory s stmt with
    | some s' => run meaning memory s' rest
    | none => none

/-- Runs the body of a function: no variable is declared and nothing is written yet. -/
def runBody (meaning : Meaning β) (memory : Memory β) (body : List Stmt) :
    Option (List (Write β) × Nat) :=
  run meaning memory ⟨fun _ => none, []⟩ body

/-! ## Runs in parts -/

variable {meaning : Meaning β} {memory : Memory β} {s s' : State β}

/-- What statements do one after the other. -/
def steps (meaning : Meaning β) (memory : Memory β) (s : State β) (ss : List Stmt) :
    Option (State β) :=
  ss.foldlM (step meaning memory) s

theorem steps_append {ss rs : List Stmt} (h : steps meaning memory s ss = some s') :
    steps meaning memory s (ss ++ rs) = steps meaning memory s' rs := by
  rw [steps, List.foldlM_append]
  show (steps meaning memory s ss).bind _ = _
  rw [h]
  rfl

theorem steps_cons {stmt : Stmt} {ss : List Stmt} (h : step meaning memory s stmt = some s') :
    steps meaning memory s (stmt :: ss) = steps meaning memory s' ss := by
  show (step meaning memory s stmt).bind _ = _
  rw [h]
  rfl

/-- A run goes on where the first statements have led. -/
theorem run_append {ss rest : List Stmt} (h : steps meaning memory s ss = some s') :
    run meaning memory s (ss ++ rest) = run meaning memory s' rest := by
  induction ss generalizing s with
  | nil =>
      injection h with h
      rw [h, List.nil_append]
  | cons stmt ss ih =>
      have hfold : (step meaning memory s stmt).bind (fun s => steps meaning memory s ss) =
          some s' := h
      cases hstep : step meaning memory s stmt with
      | none =>
          rw [hstep] at hfold
          injection hfold
      | some mid =>
          rw [hstep] at hfold
          have hrest := ih hfold
          -- no step is made from a `return`, so a run does not end among the first statements
          cases stmt with
          | result => injection hstep
          | declare | assign | when =>
              rw [List.cons_append, run]
              · rw [hstep]
                exact hrest
              · exact fun _ h => Stmt.noConfusion h

/-! ## Assignments -/

/-- A variable that was declared is assigned its value. -/
theorem assign_name {w : String} {value : Term} {v : β} {locals : Locals β}
    (hv : (eval meaning memory s.locals value).bind (·.toReal? meaning) = some v)
    (hset : setLocal s.locals w v = some locals) :
    assign meaning memory s (.name w) value = some { s with locals := locals } := by
  unfold assign
  rw [hv]
  dsimp only
  rw [hset]
  rfl

/-- A place inside a block is assigned its value. -/
theorem assign_index {a i value : Term} {v : β} {output size place : Nat}
    (hv : (eval meaning memory s.locals value).bind (·.toReal? meaning) = some v)
    (ha : eval meaning memory s.locals a = some (.target output (some size)))
    (hi : eval meaning memory s.locals i = some (.int place)) (hlt : place < size) :
    assign meaning memory s (.index a i) value =
      some { s with writes := s.writes ++ [⟨output, place, v⟩] } := by
  unfold assign
  rw [hv]
  dsimp only
  rw [ha, hi]
  exact if_pos hlt

/-! ## Reading one expression -/

/-- The expression that a whole text is. -/
def readTerm (text : String) : Option Term :=
  (lex text.toList).bind fun ts =>
    match expression (ts.length + 1) ts with
    | some (a, []) => some a
    | _ => none

end C

end ExplicitOde
