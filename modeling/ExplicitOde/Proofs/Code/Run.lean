import ExplicitOde.Proofs.Code.Kernel
import ExplicitOde.Proofs.Code.Text
import ExplicitOde.Proofs.Function.Call

/-!
# Running a kernel

What the statements of a kernel do on the strict machine. The invariant is `SlotValues`: the
local variables are the slots, of which the first have values and the others are declared only.

**Declarations** declare every slot once.

**Assignments** give the next slot the value of its node; all slots in it were assigned before.

**Blocks of outputs** write the values of the elements, in order, unless the pointer is null.
-/

namespace ExplicitOde

open C Kernel

/-! ## Meanings that agree -/

namespace C

variable {β : Type}

/-- The value of a text that is an expression without variables. -/
def textValue? (meaning : Meaning β) (text : String) : Option β :=
  (readTerm text).bind fun a =>
    (eval meaning ⟨[], []⟩ (fun _ => none) a).bind (·.toReal? meaning)

end C

namespace Code

variable {α β : Type} [Written α]

/-- Constants and operations mean the same in C as in an interpretation, as far as these numbers are
concerned. Functions are those of the precision. -/
structure Agrees (floats : FloatWidth) (constants : α → Prop) (meaning : Meaning β)
    (interpretation : Interpretation α β) : Prop where
  literal : ∀ v, constants v →
    textValue? meaning (literal floats v) = some (interpretation.constant v)
  neg : ∀ v, meaning.neg v = interpretation.unary .neg v
  function : ∀ op ∈ UnaryOp.callable, ∀ v,
    meaning.function (op.name ++ floats.ending) [v] = interpretation.unary op v
  sign : ∀ (op : BinaryOp) (sign : Char), op.sign? = some sign → ∀ v w,
    meaning.arithmetic sign v w = interpretation.binary op v w
  pow : ∀ v w, meaning.function ("pow" ++ floats.ending) [v, w] = interpretation.binary .pow v w

/-! ## Local variables -/

/-- The local variables are the slots below `count`. The first of them have these values, the others
have none. -/
structure SlotValues (count : Nat) (values : List β) (locals : Locals β) : Prop where
  slot : ∀ k < count, locals (slotName k) = some values[k]?
  other : ∀ w, (∀ k < count, slotName k ≠ w) → locals w = none

variable {count : Nat} {values : List β} {locals : Locals β}

theorem SlotValues.macrosFree (h : SlotValues count values locals) : MacrosFree locals := by
  have hletters : ∀ w ∈ macros, w.toList[1]?.any Char.isDigit = false := by decide
  exact fun w hw => h.other w fun k _ => slotName_ne (hletters w hw) k

theorem slotValues_nil : SlotValues 0 [] (fun _ => none : Locals β) where
  slot k hk := absurd hk (Nat.not_lt_zero k)
  other _ _ := rfl

/-- One more slot is declared. -/
theorem SlotValues.declare (h : SlotValues count ([] : List β) locals) :
    ∃ locals', C.declare locals (slotName count) = some locals' ∧
      SlotValues (count + 1) ([] : List β) locals' := by
  have hnew : locals (slotName count) = none :=
    h.other _ fun k hk hname => absurd (slotName_injective hname) (Nat.ne_of_lt hk)
  refine ⟨_, by rw [C.declare, hnew], fun k hk => ?_, fun w hw => ?_⟩
  · by_cases heq : k = count
    · rw [heq, if_pos rfl]
      rfl
    · rw [if_neg fun hname => heq (slotName_injective hname)]
      exact h.slot k (by omega)
  · rw [if_neg fun hname => hw count (Nat.lt_succ_self count) hname.symm]
    exact h.other w fun k hk => hw k (Nat.lt_succ_of_lt hk)

/-- The next slot is assigned. -/
theorem SlotValues.set (h : SlotValues count values locals) (hlt : values.length < count) (v : β) :
    ∃ locals', setLocal locals (slotName values.length) v = some locals' ∧
      SlotValues count (values ++ [v]) locals' := by
  have hdeclared : locals (slotName values.length) = some none := by
    rw [h.slot _ hlt, List.getElem?_eq_none (Nat.le_refl _)]
  refine ⟨_, by rw [setLocal, hdeclared], fun k hk => ?_, fun w hw => ?_⟩
  · by_cases heq : k = values.length
    · rw [heq, if_pos rfl, List.getElem?_concat_length]
    · rw [if_neg fun hname => heq (slotName_injective hname), h.slot k hk]
      by_cases hk' : k < values.length
      · rw [List.getElem?_append_left hk']
      · -- beyond the new value there was none and is none
        rw [List.getElem?_eq_none (by omega),
          List.getElem?_eq_none (by rw [List.length_append, List.length_singleton]; omega)]
  · rw [if_neg fun hname => hw _ hlt hname.symm]
    exact h.other w hw

/-! ## Declarations -/

variable {meaning : Meaning β} {memory : Memory β} {writes : List (Write β)}

/-- A row of declarations declares the next slots. -/
theorem SlotValues.declareRow (m : Nat) : ∀ {n : Nat} {locals : Locals β},
    SlotValues n ([] : List β) locals → ∃ locals',
      ((List.range' n m).map slotName).foldlM C.declare locals = some locals' ∧
        SlotValues (n + m) ([] : List β) locals' := by
  induction m with
  | zero => exact fun {n locals} h => ⟨locals, rfl, h⟩
  | succ m ih =>
      intro n locals h
      obtain ⟨mid, hmid, hslots⟩ := h.declare
      obtain ⟨locals', hrest, hslots'⟩ := ih hslots
      rw [Nat.add_assoc, Nat.add_comm 1 m] at hslots'
      refine ⟨locals', ?_, hslots'⟩
      rw [List.range'_succ, List.map_cons, List.foldlM_cons, hmid]
      exact hrest

/-- **The declarations declare all slots.** -/
theorem steps_declarations (meaning : Meaning β) (memory : Memory β) (writes : List (Write β))
    (count : Nat) :
    ∃ locals, steps meaning memory ⟨fun _ => none, writes⟩
        ((slotRows count).map fun row => .declare (row.map slotName)) = some ⟨locals, writes⟩ ∧
      SlotValues count ([] : List β) locals := by
  -- every row but the last is full, so the next one begins at `16 * r`
  have hrows : ∀ r ≤ (count + 15) / 16, ∃ locals,
      steps meaning memory ⟨fun _ => none, writes⟩ (((List.range r).map fun row =>
        List.range' (16 * row) (min 16 (count - 16 * row))).map fun row =>
          .declare (row.map slotName)) = some ⟨locals, writes⟩ ∧
        SlotValues (min (16 * r) count) ([] : List β) locals := by
    intro r
    induction r with
    | zero => exact fun _ => ⟨_, rfl, (Nat.zero_min count).symm ▸ slotValues_nil⟩
    | succ r ih =>
        intro hr
        obtain ⟨locals, hsteps, hslots⟩ := ih (Nat.le_of_succ_le hr)
        rw [Nat.min_eq_left (by omega)] at hslots
        obtain ⟨locals', hrow, hslots'⟩ := hslots.declareRow (min 16 (count - 16 * r))
        refine ⟨locals', ?_, ?_⟩
        · rw [List.range_succ, List.map_append, List.map_append, steps_append hsteps]
          have hstep : step meaning memory ⟨locals, writes⟩
              (.declare ((List.range' (16 * r) (min 16 (count - 16 * r))).map slotName)) =
              some ⟨locals', writes⟩ := by
            rw [step, hrow]
            rfl
          exact steps_cons hstep
        · have hcount : min (16 * (r + 1)) count = 16 * r + min 16 (count - 16 * r) := by omega
          rw [hcount]
          exact hslots'
  obtain ⟨locals, hsteps, hslots⟩ := hrows _ (Nat.le_refl _)
  rw [Nat.min_eq_right (by omega)] at hslots
  exact ⟨locals, hsteps, hslots⟩

/-! ## Operands -/

section Values

variable [LawfulWritten α] {floats : FloatWidth} {constants : α → Prop}
  {interpretation : Interpretation α β}

/-- The literal of a number has the value of the number. -/
theorem Agrees.eval_literal (h : Agrees floats constants meaning interpretation)
    (hlocals : MacrosFree locals) {v : α} (hv : constants v) :
    eval meaning memory locals (literalTerm floats v) =
      some (.real (interpretation.constant v)) := by
  -- the literal has one value wherever it stands, so the one that it has on its own
  obtain ⟨x, hx⟩ := @Code.eval_literal α _ β meaning _ floats v
  have hvalue := h.literal v hv
  rw [textValue?, readTerm_literal, Option.bind_some, hx _ _ fun _ _ => rfl] at hvalue
  rw [hx memory locals hlocals, ← Option.some.inj hvalue]

/-- What constants and operations mean in an interpretation if they mean what they mean in C. -/
def interpretationOf (floats : FloatWidth) (meaning : Meaning β) : Interpretation α β where
  constant v := (textValue? meaning (literal floats v)).getD (meaning.ofNat 0)
  unary op v :=
    if op = .neg then meaning.neg v else meaning.function (op.name ++ floats.ending) [v]
  binary op v w :=
    match op.sign? with
    | some sign => meaning.arithmetic sign v w
    | none => meaning.function ("pow" ++ floats.ending) [v, w]
  unbound := meaning.ofNat 0

/-- For every meaning there is an interpretation that agrees. -/
theorem agrees_interpretationOf (floats : FloatWidth) (constants : α → Prop) (meaning : Meaning β) :
    Agrees floats constants meaning (interpretationOf floats meaning) where
  literal v _ := by
    obtain ⟨x, hx⟩ := @Code.eval_literal α _ β meaning _ floats v
    have hvalue : textValue? meaning (literal floats v) = some x := by
      rw [textValue?, readTerm_literal, Option.bind_some, hx _ _ fun _ _ => rfl]
      rfl
    dsimp only [interpretationOf]
    rw [hvalue, Option.getD_some]
  neg _ := rfl
  function op hop v := by
    have hne : op ≠ .neg := by
      rintro rfl
      exact absurd hop (by decide)
    dsimp only [interpretationOf]
    rw [if_neg hne]
  sign op sign hsign v w := by
    dsimp only [interpretationOf]
    rw [hsign]
  pow _ _ := rfl

/-- A slot that was assigned has its value. -/
theorem SlotValues.eval_slot (h : SlotValues count values locals) {k : Nat} {v : β}
    (hk : k < count) (hv : values[k]? = some v) :
    eval meaning memory locals (.name (slotName k)) = some (.real v) := by
  rw [eval, nameValue, h.slot k hk, hv]
  rfl

/-- The parameters are not hidden by slots. -/
theorem SlotValues.eval_parameters (h : SlotValues count values locals) :
    eval meaning memory locals (.name "arg") = some .sources ∧
      eval meaning memory locals (.name "res") = some .targets := by
  have hnone : locals "arg" = none ∧ locals "res" = none :=
    ⟨h.other _ fun k _ => slotName_ne (by decide) k, h.other _ fun k _ => slotName_ne (by decide) k⟩
  rw [eval, nameValue, hnone.1, eval, nameValue, hnone.2]
  exact ⟨rfl, rfl⟩

/-- An integer that is written has itself as its value. -/
theorem eval_integer (n : Nat) : eval meaning memory locals (integerTerm n) = some (.int n) :=
  constantValue_toString n

/-- A pointer to a block that is read. -/
theorem SlotValues.eval_source (h : SlotValues count values locals) {input : Nat}
    {block : Option (List β)} (hblock : memory.arg[input]? = some block) :
    eval meaning memory locals (.index (.name "arg") (integerTerm input)) =
      some (.source block) := by
  rw [eval, h.eval_parameters.1, eval_integer]
  dsimp only [C.element]
  rw [hblock, Option.map_some]

/-- A pointer to a block that is written. -/
theorem SlotValues.eval_target (h : SlotValues count values locals) {output : Nat}
    {target : Option Nat} (htarget : memory.res[output]? = some target) :
    eval meaning memory locals (.index (.name "res") (integerTerm output)) =
      some (.target output target) := by
  rw [eval, h.eval_parameters.2, eval_integer]
  dsimp only [C.element]
  rw [htarget, Option.map_some]

variable {σ : Nat → β}

/-- **An operand has the value of the node that it stands for**, where the slots have theirs. -/
theorem Agrees.eval_operand (h : Agrees floats constants meaning interpretation)
    (memory : Memory β) {before : List (Expr α)}
    (hlocals : SlotValues count (before.map (Expr.value interpretation σ)) locals)
    (hle : before.length ≤ count) {op : Operand α} {e : Expr α} (hstands : Stands before op e)
    (hconstants : ∀ id v, e = .const id v → constants v) :
    eval meaning memory locals (operandTerm floats op) =
      some (.real (e.value interpretation σ)) := by
  cases hstands with
  | number => exact h.eval_literal hlocals.macrosFree (hconstants _ _ rfl)
  | @slot index _ hindex =>
      refine hlocals.eval_slot (Nat.lt_of_lt_of_le (List.getElem?_eq_some_iff.mp hindex).1 hle) ?_
      rw [List.getElem?_map, hindex]
      rfl

/-! ## Assignments -/

/-- The value at a place of an argument: what is in the block, or zero where the pointer is null. -/
def Delivers (meaning : Meaning β) (memory : Memory β) (input element : Nat) (v : β) : Prop :=
  ∃ block, memory.arg[input]? = some block ∧
    match block with
    | some cells => cells[element]? = some v
    | none => v = meaning.ofNat 0

theorem eval_argument (hlocals : SlotValues count values locals) {input element : Nat} {v : β}
    (h : Delivers meaning memory input element v) :
    (eval meaning memory locals (argumentTerm input element)).bind (·.toReal? meaning) =
      some v := by
  obtain ⟨block, hblock, hv⟩ := h
  have hpointer : eval meaning memory locals (.index (.name "arg") (integerTerm input)) =
      some (.source block) := hlocals.eval_source hblock
  cases block with
  | some cells =>
      rw [argumentTerm, eval, hpointer, Option.bind_some]
      dsimp only [holds?, Option.isSome]
      rw [eval, hpointer, eval_integer]
      dsimp only [C.element]
      rw [hv]
      rfl
  | none =>
      rw [argumentTerm, eval, hpointer, Option.bind_some]
      dsimp only [holds?, Option.isSome]
      rw [eval_integer, Option.bind_some, hv]
      rfl

/-- Every function that is called is in the library. -/
theorem isUnaryFunction_name {op : UnaryOp} (h : op ∈ UnaryOp.callable) (floats : FloatWidth) :
    isUnaryFunction (op.name ++ floats.ending) = true := by
  have hall : ∀ op ∈ UnaryOp.callable, ∀ ending ∈ ["f", ""],
      isUnaryFunction (op.name ++ ending) = true := by decide
  exact hall op h _ (by cases floats <;> decide)

omit [LawfulWritten α] in
/-- What is assigned for a unary operation has its value. -/
theorem Agrees.eval_unary (h : Agrees floats constants meaning interpretation) {op : UnaryOp}
    {a : Operand α} {v : β}
    (ha : eval meaning memory locals (operandTerm floats a) = some (.real v)) :
    (eval meaning memory locals (slotTerm floats (.unary op a))).bind (·.toReal? meaning) =
      some (interpretation.unary op v) := by
  by_cases hneg : op = .neg
  · subst hneg
    rw [slotTerm, eval, ha]
    exact congrArg some (h.neg _)
  · -- every other operation is a call
    have hmem : op ∈ UnaryOp.callable := by
      cases op <;> first | exact absurd rfl hneg | decide
    have hterm : slotTerm floats (.unary op a) =
        .call₁ (op.name ++ floats.ending) (operandTerm floats a) := by
      cases op <;> first | exact absurd rfl hneg | rfl
    rw [hterm, eval, isUnaryFunction_name hmem, ha]
    exact congrArg some (h.function op hmem _)

omit [LawfulWritten α] in
/-- What is assigned for a binary operation has its value. -/
theorem Agrees.eval_binary (h : Agrees floats constants meaning interpretation) {op : BinaryOp}
    {a b : Operand α} {v w : β}
    (ha : eval meaning memory locals (operandTerm floats a) = some (.real v))
    (hb : eval meaning memory locals (operandTerm floats b) = some (.real w)) :
    (eval meaning memory locals (slotTerm floats (.binary op a b))).bind (·.toReal? meaning) =
      some (interpretation.binary op v w) := by
  cases hsign : op.sign? with
  | some sign =>
      rw [slotTerm, hsign]
      dsimp only
      rw [eval, ha, hb]
      exact congrArg some (h.sign op sign hsign _ _)
  | none =>
      -- only the power has no sign
      obtain rfl : op = .pow := by cases op <;> first | rfl | exact absurd hsign (by decide)
      have hfunction : isBinaryFunction ("pow" ++ floats.ending) = true := by
        cases floats <;> decide
      rw [slotTerm]
      dsimp only [BinaryOp.sign?]
      rw [eval, hfunction, ha, hb]
      exact congrArg some (h.pow _ _)

/-- **What is assigned to a slot has the value of the node.** -/
theorem Agrees.eval_slot (h : Agrees floats constants meaning interpretation)
    {symbols : Std.HashMap Nat (Nat × Nat)} {before : List (Expr α)}
    (hlocals : SlotValues count (before.map (Expr.value interpretation σ)) locals)
    (hle : before.length ≤ count) {value : SlotValue α} {e : Expr α}
    (hcomputes : Computes symbols before value e)
    (hconstants : ∀ a ∈ e.operands, ∀ id v, a = .const id v → constants v)
    (hsymbols : ∀ id name input element, e = .symbol id name →
      symbols[id]? = some (input, element) → Delivers meaning memory input element (σ id)) :
    (eval meaning memory locals (slotTerm floats value)).bind (·.toReal? meaning) =
      some (e.value interpretation σ) := by
  cases hcomputes with
  | argument hplace =>
      rw [slotTerm]
      exact eval_argument hlocals (hsymbols _ _ _ _ rfl hplace)
  | @unary id op a x ha =>
      exact h.eval_unary (h.eval_operand memory hlocals hle ha (hconstants x List.mem_cons_self))
  | @binary id op a b x y ha hb =>
      exact h.eval_binary
        (h.eval_operand memory hlocals hle ha (hconstants x List.mem_cons_self))
        (h.eval_operand memory hlocals hle hb
          (hconstants y (List.mem_cons_of_mem x List.mem_cons_self)))

/-- What the machine has to know of a node: the meaning of constants that are its operands, and the
argument that a symbol stands for. -/
structure Known (symbols : Std.HashMap Nat (Nat × Nat)) (constants : α → Prop) (meaning : Meaning β)
    (memory : Memory β) (σ : Nat → β) (e : Expr α) : Prop where
  constants : ∀ a ∈ e.operands, ∀ id v, a = .const id v → constants v
  symbols : ∀ id name input element, e = .symbol id name →
    symbols[id]? = some (input, element) → Delivers meaning memory input element (σ id)

/-- **The assignments give every slot the value of its node.** -/
theorem Agrees.steps_slots (h : Agrees floats constants meaning interpretation)
    {symbols : Std.HashMap Nat (Nat × Nat)} {slots : List (SlotValue α)} {nodes : List (Expr α)}
    (hslots : ∀ k value, slots[k]? = some value →
      ∃ e, nodes[k]? = some e ∧ Computes symbols (nodes.take k) value e)
    (hknown : ∀ e ∈ nodes, Known symbols constants meaning memory σ e)
    (hlocals : SlotValues slots.length [] locals) (writes : List (Write β)) :
    ∀ n ≤ slots.length, ∃ locals',
      steps meaning memory ⟨locals, writes⟩
          ((slots.take n).zipIdx.map fun (value, k) => slotStmt floats k value) =
        some ⟨locals', writes⟩ ∧
      SlotValues slots.length ((nodes.take n).map (Expr.value interpretation σ)) locals' := by
  intro n
  induction n with
  | zero => exact fun _ => ⟨locals, rfl, hlocals⟩
  | succ n ih =>
      intro hn
      obtain ⟨mid, hsteps, hmid⟩ := ih (Nat.le_of_succ_le hn)
      obtain ⟨e, he, hcomputes⟩ := hslots n _ (List.getElem?_eq_getElem hn)
      have hcount : (nodes.take n).length = n :=
        List.length_take_of_le (Nat.le_of_lt (List.getElem?_eq_some_iff.mp he).1)
      have hnode := hknown e (List.mem_of_getElem? he)
      -- the operands of the node are before it, and their slots have values by now
      have hvalue := h.eval_slot hmid (by omega) hcomputes hnode.constants
        hnode.symbols
      have hlength : ((nodes.take n).map (Expr.value interpretation σ)).length = n := by
        rw [List.length_map, hcount]
      obtain ⟨locals', hset, hlocals'⟩ :=
        hmid.set (hlength.symm ▸ hn) (e.value interpretation σ)
      rw [hlength] at hset
      refine ⟨locals', ?_, ?_⟩
      · have htake : (slots.take (n + 1)).zipIdx = (slots.take n).zipIdx ++ [(slots[n], n)] := by
          rw [List.take_succ_eq_append_getElem hn, List.zipIdx_append, Nat.zero_add,
            List.length_take_of_le (Nat.le_of_succ_le hn)]
          rfl
        rw [htake, List.map_append, steps_append hsteps]
        exact steps_cons (assign_name hvalue hset)
      · rw [List.take_add_one, he, List.map_append]
        exact hlocals'

/-! ## Results -/

/-- What is written to the block of an output: all elements in order, nothing if the pointer is
null. -/
def blockWrites (output : Nat) (target : Option Nat) (elements : List β) : List (Write β) :=
  if target.isSome then elements.zipIdx.map fun (v, k) => ⟨output, k, v⟩ else []

/-- The assignments in the block of an output write its elements. -/
theorem Agrees.writeBlock (h : Agrees floats constants meaning interpretation)
    {nodes : List (Expr α)}
    (hlocals : SlotValues nodes.length (nodes.map (Expr.value interpretation σ)) locals)
    {output size : Nat} (hres : memory.res[output]? = some (some size))
    {operands : List (Operand α)} {es : List (Expr α)}
    (hstands : List.Forall₂ (Stands nodes) operands es)
    (hconstants : ∀ e ∈ es, ∀ id v, e = .const id v → constants v) :
    ∀ (start : Nat) (writes : List (Write β)), start + es.length ≤ size →
      ((operands.zipIdx start).map fun (e, k) => (Term.index (.index (.name "res")
          (integerTerm output)) (integerTerm k), operandTerm floats e)).foldlM
        (fun s p => assign meaning memory s p.1 p.2) (⟨locals, writes⟩ : State β) =
      some ⟨locals, writes ++ ((es.map (Expr.value interpretation σ)).zipIdx start).map
        fun (v, k) => ⟨output, k, v⟩⟩ := by
  -- the place counts along with the elements
  induction hstands with
  | nil =>
      intro start writes _
      exact congrArg some (congrArg (State.mk locals) (List.append_nil writes).symm)
  | @cons op e operands es hop _ ih =>
      intro start writes hsize
      rw [List.length_cons] at hsize
      have hvalue := h.eval_operand memory hlocals (Nat.le_refl _) hop
        (hconstants e List.mem_cons_self)
      have hassign : assign meaning memory ⟨locals, writes⟩ (.index (.index (.name "res")
          (integerTerm output)) (integerTerm start)) (operandTerm floats op) =
          some ⟨locals, writes ++ [⟨output, start, e.value interpretation σ⟩]⟩ := by
        refine assign_index ?_ (hlocals.eval_target hres) (eval_integer start) (by omega)
        rw [hvalue]
        rfl
      rw [List.zipIdx_cons, List.map_cons, List.foldlM_cons]
      dsimp only
      rw [hassign]
      refine (ih (fun e' he' => hconstants e' (List.mem_cons_of_mem e he')) (start + 1) _
        (by omega)).trans ?_
      rw [List.map_cons, List.zipIdx_cons, List.map_cons, List.append_assoc]
      rfl

/-- The statements for an output write its elements, if it is asked for. -/
theorem Agrees.steps_result (h : Agrees floats constants meaning interpretation)
    {nodes : List (Expr α)}
    (hlocals : SlotValues nodes.length (nodes.map (Expr.value interpretation σ)) locals)
    {output : Nat} {target : Option Nat} (hres : memory.res[output]? = some target)
    {operands : List (Operand α)} {es : List (Expr α)}
    (hsize : ∀ size, target = some size → es.length ≤ size)
    (hstands : List.Forall₂ (Stands nodes) operands es)
    (hconstants : ∀ e ∈ es, ∀ id v, e = .const id v → constants v) (writes : List (Write β)) :
    steps meaning memory ⟨locals, writes⟩ (resultStmts floats output operands) =
      some ⟨locals, writes ++
        blockWrites output target (es.map (Expr.value interpretation σ))⟩ := by
  have hcondition : (eval meaning memory locals (.unequal (.index (.name "res")
      (integerTerm output)) (integerTerm 0))).bind holds? = some target.isSome := by
    rw [eval, hlocals.eval_target hres, eval_integer]
    cases target <;> rfl
  rw [resultStmts]
  split
  · -- there is no block for an output without elements, and nothing to write
    rename_i hempty
    rw [List.isEmpty_iff] at hempty
    subst hempty
    cases hstands
    cases target <;> simp [steps, blockWrites]
  · -- the condition says whether there is a block, which then has room for all elements
    refine steps_cons (Eq.trans ?_ rfl)
    rw [step, hcondition]
    cases target with
    | none => exact congrArg some (congrArg (State.mk locals) (List.append_nil writes).symm)
    | some size =>
        exact h.writeBlock hlocals hres hstands hconstants 0 writes
          (by rw [Nat.zero_add]; exact hsize size rfl)

end Values

end Code

end ExplicitOde
