import ExplicitOde.Code.Source
import ExplicitOde.Proofs.Code.Literal
import Mathlib.Data.List.Forall2

/-!
# What a kernel is read as

The text of a kernel is read by C as the statements that are meant: a declaration for every row of
slots, one assignment for every slot, and for every output that has elements a block of assignments
under the condition that it is asked for. In the source of a function, this text is between the
braces of a function of its own: `source_eq`.
-/

namespace ExplicitOde

namespace Code

open C

variable {α : Type} [Written α]

/-! ## What is meant -/

/-- An integer that is written. -/
def integerTerm (n : Nat) : Term := .number (toString n)

/-- An operand that is written. -/
def operandTerm (floats : FloatWidth) : Operand α → Term
  | .number v => literalTerm floats v
  | .slot index => .name (slotName index)

/-- An element of an input, or zero where the input is not given. -/
def argumentTerm (input element : Nat) : Term :=
  .conditional (.index (.name "arg") (integerTerm input))
    (.index (.index (.name "arg") (integerTerm input)) (integerTerm element)) (integerTerm 0)

/-- What is assigned to a slot. -/
def slotTerm (floats : FloatWidth) : SlotValue α → Term
  | .argument input element => argumentTerm input element
  | .unary .neg a => .neg (operandTerm floats a)
  | .unary op a => .call₁ (op.name ++ floats.ending) (operandTerm floats a)
  | .binary op a b =>
    match op.sign? with
    | some sign => .binary sign (operandTerm floats a) (operandTerm floats b)
    | none => .call₂ ("pow" ++ floats.ending) (operandTerm floats a) (operandTerm floats b)

/-- The assignment of a slot. -/
def slotStmt (floats : FloatWidth) (index : Nat) (value : SlotValue α) : Stmt :=
  .assign (.name (slotName index)) (slotTerm floats value)

/-- The block that hands out an output. -/
def resultStmts (floats : FloatWidth) (output : Nat) (elements : List (Operand α)) : List Stmt :=
  if elements.isEmpty then []
  else
    [.when (.unequal (.index (.name "res") (integerTerm output)) (integerTerm 0))
      (elements.zipIdx.map fun (e, k) =>
        (.index (.index (.name "res") (integerTerm output)) (integerTerm k), operandTerm floats e))]

/-- The statements of a kernel. -/
def kernelStmts (floats : FloatWidth) (kernel : Kernel α) : List Stmt :=
  (slotRows kernel.slots.length).map (fun row => .declare (row.map slotName)) ++
    (kernel.slots.zipIdx.map fun (value, k) => slotStmt floats k value) ++
    kernel.results.zipIdx.flatMap fun (elements, o) => resultStmts floats o elements

/-- The lines inside the function that has the kernel in it. -/
def bodyLines (floats : FloatWidth) (kernel : Kernel α) : List String :=
  kernelLines floats kernel ++ ["  return 0;"]

/-- The statements inside that function. -/
def bodyStmts (floats : FloatWidth) (kernel : Kernel α) : List Stmt :=
  kernelStmts floats kernel ++ [.result (integerTerm 0)]

/-! ## Names and integers -/

/-- A text inside a text is itself. -/
theorem toString_text (text : String) : toString text = text := rfl

theorem toList_slotName (k : Nat) : (slotName k).toList = 'a' :: Nat.toDigits 10 k := by
  show ("a" ++ k.repr).toList = 'a' :: Nat.toDigits 10 k
  rw [String.toList_append, Nat.toList_repr]
  rfl

theorem isIdentifier_slotName (k : Nat) : isIdentifier (slotName k) = true := by
  rw [isIdentifier, toList_slotName]
  simp only [Bool.and_eq_true, List.all_eq_true]
  refine ⟨by decide, fun c hc => ?_⟩
  rw [isNameRest, Char.isAlphanum, (digits_toDigits k).2 c hc, Bool.or_true, Bool.true_or]

/-- A word without a digit after its first letter is no slot. -/
theorem slotName_ne {w : String} (h : w.toList[1]?.any Char.isDigit = false) (k : Nat) :
    slotName k ≠ w := by
  rintro rfl
  obtain ⟨hne, hdigits⟩ := digits_toDigits k
  cases hcs : Nat.toDigits 10 k with
  | nil => exact hne hcs
  | cons c cs =>
      rw [toList_slotName, hcs] at h
      have hc : c.isDigit = false := h
      rw [hdigits c (hcs ▸ List.mem_cons_self)] at hc
      exact Bool.noConfusion hc

theorem slotName_not_keyword (k : Nat) : slotName k ∉ keywords := by
  have hletters : ∀ w ∈ keywords, w.toList[1]?.any Char.isDigit = false := by decide
  exact fun hmem => slotName_ne (hletters _ hmem) k rfl

/-- A name with a number at its end tells the number. -/
theorem numbered_injective (w : String) {j k : Nat} (h : w ++ toString j = w ++ toString k) :
    j = k := by
  have hlists := congrArg String.toList h
  rw [String.toList_append, String.toList_append] at hlists
  have hvalues := congrArg (fun ds => Nat.ofDigitChars 10 ds 0) (List.append_cancel_left hlists)
  simpa [Nat.toString_eq_ofList_toDigits] using hvalues

theorem slotName_injective {j k : Nat} (h : slotName j = slotName k) : j = k :=
  numbered_injective "a" h

theorem isOperand_slotName (k : Nat) : IsOperand 0 (slotName k) (.name (slotName k)) :=
  isOperand_name (isIdentifier_slotName k) (slotName_not_keyword k)

/-- An integer is an operand. -/
theorem isOperand_integer (n : Nat) : IsOperand 0 (toString n) (integerTerm n) where
  reads := by
    rw [Nat.toString_eq_ofList_toDigits, String.toList_ofList]
    exact ⟨_, spells_toDigits n, fun _ _ => reads_number _⟩
  cuts rest := by
    obtain ⟨hne, hdigits⟩ := digits_toDigits n
    rw [Nat.toString_eq_ofList_toDigits, String.toList_ofList]
    cases hcs : Nat.toDigits 10 n with
    | nil => exact absurd hcs hne
    | cons c cs =>
        refine ⟨c, rfl, Or.inl ?_⟩
        rw [isNameRest, Char.isAlphanum, hdigits c (hcs ▸ List.mem_cons_self), Bool.or_true,
          Bool.true_or]

/-! ## Operands and what is assigned -/

section Operands

variable [LawfulWritten α] (floats : FloatWidth)

theorem isOperand_operand (a : Operand α) :
    IsOperand 1 (operandText floats a) (operandTerm floats a) := by
  cases a with
  | number v => exact isOperand_literal floats v
  | slot index => exact (isOperand_slotName index).mono (Nat.zero_le 1)

/-- Names of functions with or without the letter of single precision are names. -/
theorem function_ok {f : String}
    (hf : ∀ ending ∈ ["f", ""], isIdentifier (f ++ ending) = true ∧ f ++ ending ∉ keywords) :
    isIdentifier (f ++ floats.ending) = true ∧ f ++ floats.ending ∉ keywords := by
  cases floats
  · exact hf "f" (by decide)
  · exact hf "" (by decide)

/-- What is assigned to a slot is read as it is meant. -/
theorem isExpression_slot (value : SlotValue α) :
    IsExpression 3 (slotText floats value) (slotTerm floats value) := by
  cases value with
  | argument input element =>
      -- a pointer may be null, so the text is a choice and no operand
      have hname : isIdentifier "arg" = true ∧ "arg" ∉ keywords := by decide
      have hinput := isOperand_integer input
      have hpointer := (hinput.index hname.1 hname.2).mono (Nat.le_succ 1)
      have helement := hinput.index₂ hname.1 hname.2 (isOperand_integer element)
      have hzero := (isOperand_integer 0).isExpression.mono (Nat.le_succ 1)
      have hread := hpointer.conditional helement.isExpression hzero
      have htext : slotText (α := α) floats (.argument input element) =
          "arg" ++ "[" ++ toString input ++ "]" ++ " ? " ++
            ("arg" ++ "[" ++ toString input ++ "][" ++ toString element ++ "]") ++ " : " ++
            toString 0 := by
        rw [slotText, ← String.toList_inj]
        simp [String.toList_append, toString_text]
      rw [htext]
      exact hread
  | unary op a =>
      have ha := isOperand_operand floats a
      by_cases hneg : op = .neg
      · subst hneg
        have htext : slotText floats (.unary .neg a) = "(-" ++ operandText floats a ++ ")" := by
          rw [slotText]
        rw [htext]
        exact ha.neg.isExpression
      · have hname := function_ok floats (f := op.name) (by cases op <;> decide)
        have hcall := (ha.call₁ hname.1 hname.2).isExpression
        cases op with
        | neg => exact absurd rfl hneg
        | _ => exact hcall
  | binary op a b =>
      have ha := isOperand_operand floats a
      have hb := isOperand_operand floats b
      cases op with
      | pow =>
          have hname := function_ok floats (f := "pow") (by decide)
          exact (ha.call₂ hname.1 hname.2 hb).isExpression
      | _ => exact (ha.binary hb (by decide)).isExpression

end Operands

/-! ## Lines that are statements -/

theorem toList_textOfLines (lines : List String) :
    (textOfLines lines).toList = lines.flatMap fun line => line.toList ++ ['\n'] := by
  rw [textOfLines, String.toList_join, List.flatMap_map]
  simp [String.toList_append]

/-- The lines are read as these statements, whatever comes after them. -/
def AreStatements (lines : List String) (ss : List Stmt) : Prop :=
  ∃ tss, Spells Anything (textOfLines lines).toList tss.flatten ∧
    List.Forall₂ (IsStatement realType) tss ss

theorem areStatements_nil : AreStatements [] [] := ⟨[], spells_nil, .nil⟩

theorem AreStatements.append {as bs : List String} {ss rs : List Stmt} (h : AreStatements as ss)
    (h' : AreStatements bs rs) : AreStatements (as ++ bs) (ss ++ rs) := by
  obtain ⟨tss, hspells, hss⟩ := h
  obtain ⟨uss, hspells', hrs⟩ := h'
  refine ⟨tss ++ uss, ?_, List.rel_append hss hrs⟩
  rw [toList_textOfLines, List.flatMap_append, ← toList_textOfLines, ← toList_textOfLines,
    List.flatten_append]
  exact hspells.append hspells' fun _ _ => trivial

theorem areStatements_flatMap {β : Type} {bs : List β} {f : β → List String} {g : β → List Stmt}
    (h : ∀ b ∈ bs, AreStatements (f b) (g b)) : AreStatements (bs.flatMap f) (bs.flatMap g) := by
  induction bs with
  | nil => exact areStatements_nil
  | cons b bs ih =>
      rw [List.flatMap_cons, List.flatMap_cons]
      exact (h b List.mem_cons_self).append (ih fun b' hb' => h b' (List.mem_cons_of_mem b hb'))

theorem areStatements_map {β : Type} {bs : List β} {f : β → String} {g : β → Stmt}
    (h : ∀ b ∈ bs, AreStatements [f b] [g b]) : AreStatements (bs.map f) (bs.map g) := by
  rw [List.map_eq_flatMap, List.map_eq_flatMap]
  exact areStatements_flatMap h

theorem spells_blanks {indent : List Char} (h : ∀ c ∈ indent, isSpace c = true) :
    Spells Anything indent [] := by
  induction indent with
  | nil => exact spells_nil
  | cons c cs ih =>
      exact (spells_space (h c List.mem_cons_self)).append
        (ih fun d hd => h d (List.mem_cons_of_mem c hd)) fun _ _ => trivial

/-- A text inside a line, with blanks before it. -/
theorem spells_line (line : String) (indent : List Char) {cs : List Char} {ts : List C.Token}
    (h : Spells Anything cs ts) (hline : line.toList = indent ++ cs)
    (hindent : indent.all isSpace = true) :
    Spells Anything (line.toList ++ ['\n']) ts := by
  have hend : Spells Anything ['\n'] [] := spells_space rfl
  have hblanks := spells_blanks (List.all_eq_true.mp hindent)
  have htext := hblanks.append (h.append hend fun _ _ => trivial) fun _ _ => trivial
  rw [List.append_nil, List.nil_append] at htext
  rw [hline, List.append_assoc]
  exact htext

/-- A line of blanks and one statement. -/
theorem areStatements_line {line : String} (indent : List Char) {cs : List Char} {ts : List C.Token}
    {stmt : Stmt} (hline : line.toList = indent ++ cs) (hindent : indent.all isSpace = true)
    (hspells : Spells Anything cs ts) (h : IsStatement realType ts stmt) :
    AreStatements [line] [stmt] := by
  refine ⟨[ts], ?_, .cons h .nil⟩
  rw [toList_textOfLines, List.flatMap_singleton, List.flatten_singleton]
  exact spells_line line indent hspells hline hindent

/-! ## The lines of a kernel -/

/-- Names with commas between them. -/
theorem spells_names {ws : List String} (hne : ws ≠ []) (h : ∀ w ∈ ws, isIdentifier w = true) :
    Spells Anything ((String.intercalate ", " ws).toList ++ [';']) (nameTokens ws) := by
  have hend : Spells Anything [';'] [.semicolon] := spells_closedSign (by decide)
  induction ws with
  | nil => exact absurd rfl hne
  | cons w ws ih =>
      have hword := spells_word (h w List.mem_cons_self)
      cases ws with
      | nil =>
          rw [String.intercalate_singleton]
          exact hword.append hend fun _ _ => ends_cons rfl
      | cons v ws =>
          have hrest := ih (List.cons_ne_nil v ws) fun u hu => h u (List.mem_cons_of_mem w hu)
          -- the comma cuts off the first name, and the other names are a row again
          have hcomma : Spells Anything [',', ' '] [.comma] :=
            (spells_closedSign (by decide : (',', C.Token.comma) ∈ closedSigns)).append
              (spells_space rfl) fun _ _ => trivial
          have htext : (String.intercalate ", " (w :: v :: ws)).toList ++ [';'] =
              w.toList ++
                ([',', ' '] ++ ((String.intercalate ", " (v :: ws)).toList ++ [';'])) := by
            rw [String.intercalate_cons_cons]
            simp [String.toList_append]
          rw [htext]
          exact hword.append (hcomma.append hrest fun _ _ => trivial) fun _ _ => ends_cons rfl

/-- The declaration of a row of slots. -/
theorem areStatements_declaration {row : List Nat} (hne : row ≠ []) :
    AreStatements [declarationLine row] [.declare (row.map slotName)] := by
  have hne' : row.map slotName ≠ [] := by simpa using hne
  have hnames := spells_names hne' fun w hw => by
    obtain ⟨k, _, rfl⟩ := List.mem_map.mp hw
    exact isIdentifier_slotName k
  have htype : Spells Ends realType.toList [.word realType] := spells_word (by decide)
  have hline : (declarationLine row).toList = [' ', ' '] ++ (realType.toList ++ ([' '] ++
      ((String.intercalate ", " (row.map slotName)).toList ++ [';']))) := by
    rw [declarationLine]
    simp [String.toList_append, toString_text]
  refine areStatements_line _ hline (by decide) ?_ (isStatement_declare hne')
  exact htype.append ((spells_space rfl).append hnames fun _ _ => trivial) fun _ _ => ends_cons rfl

/-- There is no row without slots. -/
theorem ne_nil_of_mem_slotRows {count : Nat} {row : List Nat} (h : row ∈ slotRows count) :
    row ≠ [] := by
  obtain ⟨k, hk, rfl⟩ := List.mem_map.mp h
  rw [List.mem_range] at hk
  rw [← List.length_pos_iff, List.length_range']
  omega

theorem areStatements_return : AreStatements ["  return 0;"] [.result (integerTerm 0)] := by
  obtain ⟨ts, hspells, hreads⟩ := (isOperand_integer 0).reads
  have hend : Spells Anything [';'] [.semicolon] := spells_closedSign (by decide)
  have htext :=
    (spells_word (w := "return") (by decide)).append ((spells_space (c := ' ') rfl).append
    (hspells.append hend fun _ _ => ends_cons rfl) fun _ _ => trivial) fun _ _ => ends_cons rfl
  refine areStatements_line [' ', ' '] rfl (by decide) htext ?_
  exact isStatement_result (by decide)
    (complete_expression fun n hn => (hreads n hn).complete)

section Lines

variable [LawfulWritten α] (floats : FloatWidth)

/-- The text of an assignment. -/
theorem spells_assignment {target value : String} {ts us : List C.Token}
    (htarget : Spells Ends target.toList ts) (hvalue : Spells Ends value.toList us)
    (hcuts : ∀ rest, Cuts (value.toList ++ rest)) :
    Spells Anything (target.toList ++ '=' :: (value.toList ++ [';']))
      (ts ++ .assign :: (us ++ [.semicolon])) := by
  have hend : Spells Anything [';'] [.semicolon] := spells_closedSign (by decide)
  have hright : Spells Anything (value.toList ++ [';']) (us ++ [.semicolon]) :=
    hvalue.append hend fun _ _ => ends_cons rfl
  have hassign :
      Spells Anything ('=' :: (value.toList ++ [';'])) (.assign :: (us ++ [.semicolon])) :=
    (spells_openSign (by decide : ('=', C.Token.assign) ∈ openSigns)).append hright
      fun rest _ => (List.append_assoc value.toList [';'] rest).symm ▸ hcuts _
  exact htarget.append hassign fun _ _ => ends_cons rfl

/-- The assignment of a slot. -/
theorem areStatements_slot (k : Nat) (value : SlotValue α) :
    AreStatements [assignmentLine floats k value] [slotStmt floats k value] := by
  have hexpression := isExpression_slot floats value
  obtain ⟨us, hspells, hcomplete⟩ := hexpression.reads
  have htext := spells_assignment (spells_word (isIdentifier_slotName k)) hspells hexpression.cuts
  have hline : (assignmentLine floats k value).toList =
      [' ', ' '] ++ ((slotName k).toList ++ '=' :: ((slotText floats value).toList ++ [';'])) := by
    rw [assignmentLine]
    simp [String.toList_append, toString_text]
  refine areStatements_line _ hline (by decide) htext ?_
  refine isStatement_assign (fun hmem => ?_) (slotName_ne (by decide) k)
    (fun n _ => reads_name (slotName_not_keyword k)) hcomplete
  have hkeywords : ∀ w ∈ ["return", "if"], w ∈ keywords := by decide
  exact slotName_not_keyword k (hkeywords _ hmem)

/-- The assignment of an element of an output. -/
theorem isAssignment_result (output k : Nat) (e : Operand α) :
    ∃ ts, Spells Anything
        ((s!"    res[{output}][{k}]={operandText floats e};").toList ++ ['\n']) ts ∧
      IsAssignment ts (.index (.index (.name "res") (integerTerm output)) (integerTerm k),
        operandTerm floats e) := by
  have hname : isIdentifier "res" = true ∧ "res" ∉ keywords := by decide
  have htarget := (isOperand_integer output).index₂ hname.1 hname.2 (isOperand_integer k)
  have hvalue := (isOperand_operand floats e).isExpression
  obtain ⟨ts, hspells, hreads⟩ := htarget.reads
  obtain ⟨us, hspells', hcomplete⟩ := hvalue.reads
  have hline : (s!"    res[{output}][{k}]={operandText floats e};").toList =
      [' ', ' ', ' ', ' '] ++
        (("res" ++ "[" ++ toString output ++ "][" ++ toString k ++ "]").toList ++
        '=' :: ((operandText floats e).toList ++ [';'])) := by
    simp [String.toList_append, toString_text]
  refine ⟨_, spells_line _ _ (spells_assignment hspells hspells' hvalue.cuts) hline
    (by decide), ?_⟩
  exact isAssignment (fun n hn => hreads n (by omega)) fun n hn => hcomplete n (by omega)

/-- The assignments of the elements of an output. -/
theorem isAssignment_results (output : Nat) (es : List (Operand α × Nat)) :
    ∃ tss, Spells Anything (textOfLines (es.map fun (e, k) =>
        s!"    res[{output}][{k}]={operandText floats e};")).toList tss.flatten ∧
      List.Forall₂ IsAssignment tss (es.map fun (e, k) =>
        (.index (.index (.name "res") (integerTerm output)) (integerTerm k),
          operandTerm floats e)) := by
  induction es with
  | nil => exact ⟨[], spells_nil, .nil⟩
  | cons p es ih =>
      obtain ⟨e, k⟩ := p
      obtain ⟨ts, hspells, hts⟩ := isAssignment_result floats output k e
      obtain ⟨tss, hspells', htss⟩ := ih
      refine ⟨ts :: tss, ?_, .cons hts htss⟩
      rw [toList_textOfLines, List.map_cons, List.flatMap_cons, ← toList_textOfLines,
        List.flatten_cons]
      exact hspells.append hspells' fun _ _ => trivial

/-- The block of an output. -/
theorem areStatements_result (output : Nat) (elements : List (Operand α)) :
    AreStatements (resultLines floats output elements) (resultStmts floats output elements) := by
  rw [resultLines, resultStmts]
  split
  · exact areStatements_nil
  have hname : isIdentifier "res" = true ∧ "res" ∉ keywords := by decide
  obtain ⟨tss, hbody, htss⟩ := isAssignment_results floats output elements.zipIdx
  obtain ⟨cs, hspells, hreads⟩ := ((isOperand_integer output).index hname.1 hname.2).reads
  obtain ⟨zs, hzero, hreadsZero⟩ := (isOperand_integer 0).reads
  -- the three parts of the block: its head, its assignments and its end
  have hcondition : Spells Ends (("res" ++ "[" ++ toString output ++ "]").toList ++
      (['!', '='] ++ (toString 0).toList)) (cs ++ .unequal :: zs) :=
    hspells.append (spells_unequal.append hzero fun _ _ => trivial) fun _ _ => ends_cons rfl
  have hbrace : Spells Anything [' ', '\x7b'] [.openingBrace] :=
    (spells_space rfl).append (spells_closedSign (by decide)) fun _ _ => trivial
  have hhead := (spells_word (w := "if") (by decide)).append ((spells_space (c := ' ') rfl).append
    (hcondition.parentheses.append hbrace fun _ _ => trivial) fun _ _ => trivial)
    fun _ _ => ends_cons rfl
  have hend : Spells Anything ['\x7d'] [.closingBrace] := spells_closedSign (by decide)
  have hheadLine := spells_line s!"  if (res[{output}]!=0) \x7b" [' ', ' '] hhead
    (by simp [String.toList_append, toString_text]) (by decide)
  have hendLine := spells_line "  \x7d" [' ', ' '] hend rfl (by decide)
  have hcomplete := complete_expression fun n hn =>
    complete_unequal (hreads n hn) (hreadsZero n (Nat.zero_le n))
  refine ⟨[_], ?_, .cons (isStatement_when (by decide) hcomplete htss) .nil⟩
  have hblock := hheadLine.append (hbody.append hendLine fun _ _ => trivial) fun _ _ => trivial
  rw [toList_textOfLines, List.flatMap_append, List.flatMap_cons, ← toList_textOfLines,
    List.flatMap_singleton, List.flatten_singleton, List.append_assoc]
  simp only [List.append_assoc, List.cons_append, List.nil_append] at hblock ⊢
  exact hblock

/-- **The text inside the function that has a kernel in it is read as the statements that are
meant.** -/
theorem read_body (kernel : Kernel α) :
    read realType (textOfLines (bodyLines floats kernel)) = some (bodyStmts floats kernel) := by
  have hdeclarations : AreStatements ((slotRows kernel.slots.length).map declarationLine)
      ((slotRows kernel.slots.length).map fun row => .declare (row.map slotName)) :=
    areStatements_map fun row hrow => areStatements_declaration (ne_nil_of_mem_slotRows hrow)
  have hslots :
    AreStatements (kernel.slots.zipIdx.map fun (value, k) => assignmentLine floats k value)
      (kernel.slots.zipIdx.map fun (value, k) => slotStmt floats k value) :=
    areStatements_map fun p _ => areStatements_slot floats p.2 p.1
  have hresults : AreStatements
      (kernel.results.zipIdx.flatMap fun (elements, o) => resultLines floats o elements)
      (kernel.results.zipIdx.flatMap fun (elements, o) => resultStmts floats o elements) :=
    areStatements_flatMap fun p _ => areStatements_result floats p.2 p.1
  obtain ⟨tss, hspells, hstatements⟩ :=
    ((hdeclarations.append hslots).append hresults).append areStatements_return
  exact read_eq (hspells.lex_eq trivial) hstatements

end Lines

/-! ## Sources -/

section Sources

variable {f : SymbolicFunction α}

theorem textOfLines_append (as bs : List String) :
    textOfLines (as ++ bs) = textOfLines as ++ textOfLines bs := by
  rw [← String.toList_inj, String.toList_append, toList_textOfLines, toList_textOfLines,
    toList_textOfLines, List.flatMap_append]

theorem textOfLines_flatMap {β : Type} (xs : List β) (g : β → List String) :
    textOfLines (xs.flatMap g) = String.join (xs.map fun x => textOfLines (g x)) := by
  induction xs with
  | nil => rfl
  | cons x xs ih => rw [List.flatMap_cons, textOfLines_append, ih, List.map_cons, String.join_cons]

theorem textOfLines_functionLines (head : String) (body : List String) :
    textOfLines (functionLines head body) = head ++ " \x7b\n" ++ textOfLines body ++ "\x7d\n" := by
  have hline : ∀ line, textOfLines [line] = line ++ "\n" := fun line => by
    rw [← String.toList_inj, toList_textOfLines, List.flatMap_singleton, String.toList_append]
    rfl
  rw [functionLines, textOfLines_append, textOfLines_append, hline, hline,
    @String.append_assoc head]
  rfl

/-- The source has the statements of the kernel inside a function. -/
theorem source_eq (options : CodeOptions) (f : SymbolicFunction α) (kernel : Kernel α) :
    ∃ before after, textOfLines (sourceLines options f kernel) =
      before ++ "static " ++ evaluationHead kernelName ++ " \x7b\n" ++
        textOfLines (bodyLines options.floats kernel) ++ "\x7d\n" ++ after := by
  -- six parts of the source follow the function
  obtain ⟨as, bs, hlines⟩ : ∃ as bs, sourceLines options f kernel =
      as ++ functionLines ("static " ++ evaluationHead kernelName)
        (bodyLines options.floats kernel) ++ bs := by
    have hmore : ∀ {ls fs : List String}, (∃ as bs, ls = as ++ fs ++ bs) → ∀ cs,
        ∃ as bs, ls ++ cs = as ++ fs ++ bs :=
      fun ⟨as, bs, h⟩ cs => ⟨as, bs ++ cs, by rw [h, List.append_assoc]⟩
    have hlast : ∀ as fs : List String, ∃ as' bs, as ++ fs = as' ++ fs ++ bs :=
      fun as _ => ⟨as, [], (List.append_nil _).symm⟩
    exact hmore (hmore (hmore (hmore (hmore (hmore (hlast _ _) _) _) _) _) _) _
  refine ⟨textOfLines as, textOfLines bs, ?_⟩
  rw [hlines, textOfLines_append, textOfLines_append, textOfLines_functionLines]
  simp only [String.append_assoc]

/-- The code for a kernel, where the options are accepted. -/
theorem generateCode_eq {options : CodeOptions} {kernel : Kernel α}
    (hoptions : options.check = .ok ()) (hkernel : Kernel.ofFunction f = .ok kernel) :
    generateCode options f = .ok ⟨f.name, textOfLines (sourceLines options f kernel),
      if options.header then some (textOfLines (headerLines options f.name)) else none⟩ := by
  rw [generateCode, hoptions, hkernel]
  rfl

/-- The source of generated code. -/
theorem source_of_ok {options : CodeOptions} {code : GeneratedCode} {kernel : Kernel α}
    (hcode : generateCode options f = .ok code) (hkernel : Kernel.ofFunction f = .ok kernel) :
    code.source = textOfLines (sourceLines options f kernel) := by
  cases hoptions : options.check with
  | error cause =>
      rw [generateCode, hoptions] at hcode
      injection hcode
  | ok =>
      rw [generateCode_eq hoptions hkernel] at hcode
      rw [← Except.ok.inj hcode]

end Sources

end Code

end ExplicitOde
