import ExplicitOde.Proofs.C.Body
import ExplicitOde.Proofs.Code.Text

/-!
# The body of the kernel

A compiler reads the kernel line by line: no line of it is a directive or goes on in the next one,
and every brace that is opened is closed. `Avoids` says of a text which characters it does without,
and is shown for all that a kernel is put together from.

**The lines of a kernel are the pieces of one body, which is read as the statements that are
meant**: `kernelBody_ok`.
-/

namespace ExplicitOde

namespace Code

open C

variable {α : Type}

/-! ## Characters that a text does without -/

/-- None of these characters is in the text. -/
def Avoids (excluded : List Char) (text : String) : Prop := ∀ c ∈ text.toList, c ∉ excluded

instance (excluded : List Char) : DecidablePred (Avoids excluded) := fun text =>
  decidable_of_iff (text.toList.all (fun c => c ∉ excluded) = true) <| by
    rw [List.all_eq_true]
    exact forall₂_congr fun _ _ => decide_eq_true_iff

/-- A line that is no directive. -/
abbrev Plain : String → Prop := Avoids ['\n', '#']

/-- A text inside of a line, without directives and braces. -/
abbrev Inline : String → Prop := Avoids ['\n', '#', '\x7b', '\x7d']

section

variable {excluded : List Char}

theorem avoids_append {a b : String} :
    Avoids excluded (a ++ b) ↔ Avoids excluded a ∧ Avoids excluded b := by
  rw [Avoids, String.toList_append, List.forall_mem_append]
  rfl

theorem Avoids.mono {fewer : List Char} {text : String} (h : Avoids excluded text)
    (hsubset : fewer ⊆ excluded) : Avoids fewer text :=
  fun c hc hmem => h c hc (hsubset hmem)

/-- A text of characters of one class. -/
theorem avoids_of_class {p : Char → Bool} (hp : excluded.any p = false) {text : String}
    (h : ∀ c ∈ text.toList, p c = true) : Avoids excluded text :=
  fun c hc hmem => Bool.eq_false_iff.mp hp (List.any_eq_true.mpr ⟨c, hmem, h c hc⟩)

theorem avoids_identifier (hexcluded : excluded.any isNameRest = false) {w : String}
    (h : isIdentifier w = true) : Avoids excluded w :=
  avoids_of_class hexcluded (isNameRest_of_isIdentifier h)

theorem avoids_integer (hexcluded : excluded.any Char.isDigit = false) (n : Nat) :
    Avoids excluded (toString n) := by
  refine avoids_of_class hexcluded ?_
  rw [Nat.toString_eq_ofList_toDigits, String.toList_ofList]
  exact (digits_toDigits n).2

theorem avoids_intercalate {separator : String} (hseparator : Avoids excluded separator)
    {ws : List String} (h : ∀ w ∈ ws, Avoids excluded w) :
    Avoids excluded (String.intercalate separator ws) := by
  induction ws with
  | nil => exact List.forall_mem_nil _
  | cons w ws ih =>
      obtain ⟨hw, hws⟩ := List.forall_mem_cons.mp h
      cases ws with
      | nil =>
          rw [String.intercalate_singleton]
          exact hw
      | cons v ws =>
          rw [String.intercalate_cons_cons, avoids_append, avoids_append]
          exact ⟨⟨hw, hseparator⟩, ih hws⟩

end

theorem Inline.plain {text : String} (h : Inline text) : Plain text :=
  h.mono (by decide)

theorem Inline.not_isBrace {text : String} (h : Inline text) :
    ∀ c ∈ text.toList, isBrace c = false := by
  intro c hc
  have hne := h c hc
  simp only [List.mem_cons, List.not_mem_nil, or_false, not_or] at hne
  rw [isBrace, Bool.or_eq_false_iff]
  exact ⟨beq_false_of_ne hne.2.2.1, beq_false_of_ne hne.2.2.2⟩

theorem Plain.isPlain {line : String} (h : Plain line) : IsPlain line.toList := by
  intro c hc
  have hne := h c hc
  simp only [List.mem_cons, List.not_mem_nil, or_false, not_or] at hne
  exact hne

theorem inline_integer (n : Nat) : Inline (toString n) := avoids_integer rfl n

theorem inline_identifier {w : String} (h : isIdentifier w = true) : Inline w :=
  avoids_identifier rfl h

/-! ## The kernel -/

section Kernels

variable [Written α] [LawfulWritten α] (floats : FloatWidth)

/-- The characters of numerals. -/
def isNumeralChar (c : Char) : Bool :=
  c.isDigit || c == '.' || c == 'e' || c == '-' || c == 'f'

theorem digits_numeral {ds : List Char} (h : Digits ds) : ∀ c ∈ ds, isNumeralChar c = true := by
  intro c hc
  simp [isNumeralChar, h.2 c hc]

theorem exponentPart_numeral {cs : List Char} (h : ExponentPart cs) :
    ∀ c ∈ cs, isNumeralChar c = true := by
  rcases h with rfl | ⟨sign, ds, rfl, rfl | rfl, hds⟩
  · exact List.forall_mem_nil _
  · exact List.forall_mem_cons.mpr ⟨rfl, digits_numeral hds⟩
  · exact List.forall_mem_cons.mpr ⟨rfl, List.forall_mem_cons.mpr ⟨rfl, digits_numeral hds⟩⟩

theorem inline_numeral {cs ending : List Char} (h : C.Numeral cs)
    (hending : FloatingEnding ending) : Inline (String.ofList (cs ++ ending)) := by
  refine avoids_of_class (p := isNumeralChar) rfl ?_
  rw [String.toList_ofList]
  refine List.forall_mem_append.mpr ⟨?_, ?_⟩
  · cases h with
    | point hwhole hfraction htail =>
        exact List.forall_mem_append.mpr ⟨digits_numeral hwhole, List.forall_mem_cons.mpr ⟨rfl,
          List.forall_mem_append.mpr ⟨digits_numeral hfraction, exponentPart_numeral htail⟩⟩⟩
    | exponent hwhole htail =>
        exact List.forall_mem_append.mpr ⟨digits_numeral hwhole, exponentPart_numeral htail⟩
  · rcases hending with rfl | rfl
    · exact List.forall_mem_nil _
    · exact List.forall_mem_singleton.mpr rfl

omit [Written α] [LawfulWritten α] in
theorem IsMagnitude.inline {text : String} {a : Term} (h : IsMagnitude text a) : Inline text := by
  have hmacros : ∀ w ∈ macros, Inline w := by decide
  cases h with
  | named h => exact hmacros _ h
  | numeral h hending => exact inline_numeral h hending

theorem IsLiteral.inline {text : String} {a : Term} (h : IsLiteral text a) : Inline text := by
  cases h with
  | plain h => exact h.inline
  | negative h =>
      simp only [avoids_append, h.inline, and_true]
      decide

theorem inline_literal (v : α) : Inline (literal floats v) := (isLiteral_literal floats v).inline

theorem inline_slotName (k : Nat) : Inline (slotName k) :=
  inline_identifier (isIdentifier_slotName k)

theorem inline_operand (a : Operand α) : Inline (operandText floats a) := by
  cases a with
  | number v => exact inline_literal floats v
  | slot index => exact inline_slotName index

theorem inline_ending : Inline floats.ending := by
  cases floats <;> decide

theorem inline_slotText (value : SlotValue α) : Inline (slotText floats value) := by
  have hending := inline_ending floats
  cases value with
  | argument input element =>
      simp only [slotText, toString_text, avoids_append, inline_integer, and_true]
      decide
  | unary op a =>
      have ha := inline_operand floats a
      have hname : Inline op.name := by cases op <;> decide
      -- the minus sign is written in front of its operand, all other operations as calls
      by_cases hneg : op = .neg
      · subst hneg
        simp only [slotText, avoids_append, ha, and_true]
        decide
      · have htext : slotText floats (.unary op a) =
            op.name ++ floats.ending ++ "(" ++ operandText floats a ++ ")" := by
          cases op <;> first | exact absurd rfl hneg | rfl
        simp only [htext, avoids_append, ha, hname, hending, and_true, true_and]
        decide
  | binary op a b =>
      have ha := inline_operand floats a
      have hb := inline_operand floats b
      cases hsign : op.sign? with
      | some sign =>
          have hinline : Inline sign.toString := by
            cases op with
            | pow => cases hsign
            | _ =>
                obtain rfl := Option.some.inj hsign
                decide
          simp only [slotText, hsign, avoids_append, ha, hb, hinline, and_true]
          decide
      | none =>
          simp only [slotText, hsign, avoids_append, ha, hb, hending, and_true]
          decide

omit [LawfulWritten α] in
theorem inline_declaration (row : List Nat) : Inline (declarationLine row) := by
  have hnames : Inline (String.intercalate ", " (row.map slotName)) :=
    avoids_intercalate (by decide) fun w hw => by
      obtain ⟨k, _, rfl⟩ := List.mem_map.mp hw
      exact inline_slotName k
  simp only [declarationLine, toString_text, avoids_append, hnames, and_true]
  decide

theorem inline_assignment (k : Nat) (value : SlotValue α) :
    Inline (assignmentLine floats k value) := by
  simp only [assignmentLine, toString_text, avoids_append, inline_slotName, inline_slotText,
    and_true]
  decide

/-- All braces that are opened in the lines are closed in them, and no others are. -/
def Balanced (lines : List String) : Prop :=
  ∀ depth, textLevel depth (textOfLines lines).toList = some depth

omit [Written α] [LawfulWritten α] in
theorem Balanced.append {as bs : List String} (h : Balanced as) (h' : Balanced bs) :
    Balanced (as ++ bs) := by
  intro depth
  rw [textOfLines_append, String.toList_append, textLevel_append, h, Option.bind_some, h']

omit [Written α] [LawfulWritten α] in
theorem balanced_inline {lines : List String} (h : ∀ line ∈ lines, Inline line) :
    Balanced lines := by
  refine textLevel_of_not_isBrace fun c hc => ?_
  rw [toList_textOfLines] at hc
  obtain ⟨line, hline, hc⟩ := List.mem_flatMap.mp hc
  rcases List.mem_append.mp hc with hc | hc
  · exact (h line hline).not_isBrace c hc
  · rw [List.mem_singleton.mp hc]
    rfl

omit [Written α] [LawfulWritten α] in
theorem balanced_flatMap {β : Type} {xs : List β} {g : β → List String}
    (h : ∀ x ∈ xs, Balanced (g x)) : Balanced (xs.flatMap g) := by
  induction xs with
  | nil => exact fun _ => rfl
  | cons x xs ih =>
      obtain ⟨hx, hxs⟩ := List.forall_mem_cons.mp h
      exact hx.append (ih hxs)

omit [Written α] [LawfulWritten α] in
/-- A line that ends in an opening brace, and one with a closing brace. -/
theorem Balanced.block {head : String} {lines : List String} (hhead : Inline head)
    (h : Balanced lines) : Balanced ((head ++ " \x7b") :: (lines ++ ["  \x7d"])) := by
  intro depth
  have hopening : textLevel depth (textOfLines [head ++ " \x7b"]).toList = some (depth + 1) := by
    have hnone : textLevel depth head.toList = some depth :=
      textLevel_of_not_isBrace hhead.not_isBrace depth
    rw [toList_textOfLines, List.flatMap_singleton, String.toList_append, List.append_assoc,
      textLevel_append, hnone]
    rfl
  rw [← List.singleton_append, textOfLines_append, String.toList_append, textLevel_append, hopening,
    Option.bind_some, textOfLines_append, String.toList_append, textLevel_append, h]
  rfl

theorem inline_result (output k : Nat) (e : Operand α) :
    Inline s!"    res[{output}][{k}]={operandText floats e};" := by
  simp only [toString_text, avoids_append, inline_integer, inline_operand, and_true]
  decide

theorem inline_condition (output : Nat) : Inline s!"  if (res[{output}]!=0)" := by
  simp only [avoids_append, inline_integer, and_true]
  decide

omit [LawfulWritten α] in
theorem resultLines_of_ne {elements : List (Operand α)} (h : elements ≠ []) (output : Nat) :
    resultLines floats output elements = (s!"  if (res[{output}]!=0)" ++ " \x7b") ::
      ((elements.zipIdx.map fun (e, k) => s!"    res[{output}][{k}]={operandText floats e};") ++
        ["  \x7d"]) := by
  have hcondition : s!"  if (res[{output}]!=0) \x7b" =
      s!"  if (res[{output}]!=0)" ++ " \x7b" := by
    rw [← String.toList_inj]
    simp [String.toList_append, toString_text]
  rw [resultLines, if_neg (by simpa using h), hcondition]
  rfl

theorem balanced_result (output : Nat) (elements : List (Operand α)) :
    Balanced (resultLines floats output elements) := by
  by_cases h : elements = []
  · subst h
    exact fun _ => rfl
  · rw [resultLines_of_ne floats h]
    refine Balanced.block (inline_condition output) (balanced_inline fun line hline => ?_)
    obtain ⟨p, _, rfl⟩ := List.mem_map.mp hline
    exact inline_result floats output p.2 p.1

theorem plain_result (output : Nat) (elements : List (Operand α)) :
    ∀ line ∈ resultLines floats output elements, Plain line := by
  by_cases h : elements = []
  · subst h
    exact List.forall_mem_nil _
  · rw [resultLines_of_ne floats h, List.forall_mem_cons, List.forall_mem_append,
      List.forall_mem_singleton]
    refine ⟨avoids_append.mpr ⟨(inline_condition output).plain, by decide⟩, fun line hline => ?_,
      by decide⟩
    obtain ⟨p, _, rfl⟩ := List.mem_map.mp hline
    exact (inline_result floats output p.2 p.1).plain

/-- The lines of a kernel are balanced and no directives. -/
theorem bodyLines_ok (kernel : Kernel α) :
    Balanced (bodyLines floats kernel) ∧ ∀ line ∈ bodyLines floats kernel, Plain line := by
  have hdeclarations : ∀ line ∈ (slotRows kernel.slots.length).map declarationLine,
      Inline line := fun line hline => by
    obtain ⟨row, _, rfl⟩ := List.mem_map.mp hline
    exact inline_declaration row
  have hslots : ∀ line ∈ kernel.slots.zipIdx.map fun p => assignmentLine floats p.2 p.1,
      Inline line := fun line hline => by
    obtain ⟨p, _, rfl⟩ := List.mem_map.mp hline
    exact inline_assignment floats p.2 p.1
  have hreturn : ∀ line ∈ ["  return 0;"], Inline line := List.forall_mem_singleton.mpr (by decide)
  -- only the lines of results have braces, and they close what they open
  have hresults : Balanced
      (kernel.results.zipIdx.flatMap fun p => resultLines floats p.2 p.1) :=
    balanced_flatMap fun p _ => balanced_result floats p.2 p.1
  rw [bodyLines, kernelLines]
  constructor
  · exact (((balanced_inline hdeclarations).append (balanced_inline hslots)).append
      hresults).append (balanced_inline hreturn)
  · simp only [List.forall_mem_append]
    refine ⟨⟨⟨fun line h => (hdeclarations line h).plain, fun line h => (hslots line h).plain⟩,
      fun line hline => ?_⟩, fun line h => (hreturn line h).plain⟩
    obtain ⟨p, _, hline⟩ := List.mem_flatMap.mp hline
    exact plain_result floats p.2 p.1 line hline

/-- The body of the function that has the kernel in it. -/
def kernelBody (kernel : Kernel α) : List Piece :=
  (tokens (textOfLines (bodyLines floats kernel))).map .token

/-- The lines of a kernel are the pieces of its body, which are read as the statements that are
meant. -/
theorem kernelBody_ok (kernel : Kernel α) :
    textPieces ((bodyLines floats kernel).map String.toList) = some (kernelBody floats kernel) ∧
      level 0 (kernelBody floats kernel) = some 0 ∧
      readStatements realType (kernelBody floats kernel) = some (bodyStmts floats kernel) := by
  have hread := read_body floats kernel
  obtain ⟨ts, hlex, hstatements⟩ := Option.bind_eq_some_iff.mp hread
  have htokens : tokens (textOfLines (bodyLines floats kernel)) = ts := by
    rw [tokens, hlex, Option.getD_some]
  rw [kernelBody, htokens]
  refine ⟨?_, ?_, ?_⟩
  · rw [toList_textOfLines] at hlex
    refine textPieces_of_lex ?_
    rw [List.flatMap_map]
    exact hlex
  · rw [level_of_lex hlex]
    exact (bodyLines_ok floats kernel).1 0
  · rw [readStatements_map]
    exact hstatements

end Kernels

end Code

end ExplicitOde
