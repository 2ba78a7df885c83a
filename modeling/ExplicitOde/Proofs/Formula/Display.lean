import ExplicitOde.Expr.Display
import ExplicitOde.Proofs.Formula.Parse
import ExplicitOde.Proofs.Formula.Scan
import ExplicitOde.Proofs.Expr.Order

/-!
# Expression texts are formulas

How the text of an expression is derived in the grammar: `Expr.derivation`. Every text is one of a
sign, power or primary, so that it can stand on either side of any sign as it is; only a constant
can begin with a minus sign, and there it is the sign of a number.

**The text of an expression is read as its derivation says**, if the symbols are named by
identifiers and the constants are written as plain numerals, with a minus sign or without:
`parseFormula_display`.
-/

namespace ExplicitOde

open Grammar

variable {α : Type}

/-! ## Derivations of expression texts -/

/-- A text of a sign, power or primary as a sum. -/
def Grammar.Derivation.asSum (d : Derivation α .unary) : Derivation α .sum :=
  .sum (.product d .noFactor) .noSummand

@[simp] theorem Grammar.Derivation.tokens_asSum (d : Derivation α .unary) :
    d.asSum.tokens = d.tokens := by
  simp [asSum, tokens]

@[simp] theorem Grammar.Derivation.meaning_asSum (d : Derivation α .unary) :
    d.asSum.meaning = d.meaning := rfl

/-- Two texts with a sign between them, in parentheses; those of a power as a call. -/
def BinaryOp.derivation (op : BinaryOp) (a b : Derivation α .unary) : Derivation α .primary :=
  match op with
  | .add => .group (.sum (.product a .noFactor) (.summand .plus (.product b .noFactor) .noSummand))
  | .sub => .group (.sum (.product a .noFactor) (.summand .minus (.product b .noFactor) .noSummand))
  | .mul => .group (.sum (.product a (.factor .times b .noFactor)) .noSummand)
  | .div => .group (.sum (.product a (.factor .divide b .noFactor)) .noSummand)
  | .pow => .call "pow" (.moreArguments a.asSum (.argument b.asSum))

/-- The sign of an operation is a mark, and stands between the operands. -/
theorem BinaryOp.exists_mark {op : BinaryOp} {sign : Char} (h : op.sign? = some sign) :
    ∃ m : Mark, m.char = sign ∧ ∀ a b : Derivation α .unary, (op.derivation a b).tokens =
      .mark .leftParen :: (a.tokens ++ .mark m :: (b.tokens ++ [.mark .rightParen])) := by
  cases op with
  | add => exact ⟨.plus, Option.some.inj h, fun a b => by
      simp [derivation, Derivation.tokens, SumSign.mark]⟩
  | sub => exact ⟨.minus, Option.some.inj h, fun a b => by
      simp [derivation, Derivation.tokens, SumSign.mark]⟩
  | mul => exact ⟨.star, Option.some.inj h, fun a b => by
      simp [derivation, Derivation.tokens, ProductSign.mark]⟩
  | div => exact ⟨.slash, Option.some.inj h, fun a b => by
      simp [derivation, Derivation.tokens, ProductSign.mark]⟩
  | pow => cases h

variable [Scalar α]

/-- A number by its numeral. -/
def numeralDerivation (cs : List Char) : Derivation α .unary :=
  .unsigned (.base (.number ((Decimal.read cs).elim Scalar.zero Scalar.ofDecimal)))

theorem numeralDerivation_chars (n : PlainNumeral) :
    (numeralDerivation n.chars : Derivation α .unary) =
      .unsigned (.base (.number (Scalar.ofDecimal n.value))) := by
  rw [numeralDerivation, n.read_chars, Option.elim_some]

variable [Written α]

/-- The text of a constant: a numeral, perhaps with a sign. -/
def constantDerivation (v : α) : Derivation α .unary :=
  match (Written.display v).toList with
  | '-' :: cs => .negative (numeralDerivation cs)
  | cs => numeralDerivation cs

/-- How the text of an expression is derived. -/
def Expr.derivation : Expr α → Derivation α .unary
  | .const _ v => constantDerivation v
  | .symbol _ name => .unsigned (.base (.name name))
  | .unary _ .neg a => .unsigned (.base (.group (Derivation.negative a.derivation).asSum))
  | .unary _ op a => .unsigned (.base (.call op.name (.argument a.derivation.asSum)))
  | .binary _ op a b => .unsigned (.base (op.derivation a.derivation b.derivation))

/-- All functions but the sign are written alike. -/
theorem Expr.unary_text {op : UnaryOp} (h : op ≠ .neg) (id : Nat) (a : Expr α) :
    (unary id op a).display = op.name ++ "(" ++ a.display ++ ")" ∧
      (unary id op a).derivation =
        .unsigned (.base (.call op.name (.argument a.derivation.asSum))) := by
  cases op <;> first | exact absurd rfl h | exact ⟨rfl, rfl⟩

/-- A number is written as a plain numeral that stands for it, or as one with a minus sign that
stands for its negative. -/
def ReadsBack (v : α) : Prop :=
  ∃ n : PlainNumeral,
    (Written.display v).toList = n.chars ∧ Scalar.ofDecimal n.value = v ∨
    (Written.display v).toList = '-' :: n.chars ∧
      Scalar.foldUnary? .neg (Scalar.ofDecimal n.value : α) = some v

/-- The two ways in which a constant is derived. -/
theorem ReadsBack.derivation_cases {v : α} (h : ReadsBack v) :
    ∃ n : PlainNumeral,
      ((Written.display v).toList = n.chars ∧ Scalar.ofDecimal n.value = v ∧
        constantDerivation v = .unsigned (.base (.number v))) ∨
      ((Written.display v).toList = '-' :: n.chars ∧
        Scalar.foldUnary? .neg (Scalar.ofDecimal n.value : α) = some v ∧
        constantDerivation v =
          .negative (.unsigned (.base (.number (Scalar.ofDecimal n.value))))) := by
  obtain ⟨n, ⟨htext, hvalue⟩ | ⟨htext, hvalue⟩⟩ := h
  · -- a numeral begins with a digit, not with a sign
    have hstart : ∀ cs, n.chars ≠ '-' :: cs := by
      intro cs hcs
      have hmem : '-' ∈ n.chars := hcs ▸ List.mem_cons_self
      exact absurd (n.isNumberStart_of_mem '-' hmem) (by decide)
    refine ⟨n, Or.inl ⟨htext, hvalue, ?_⟩⟩
    rw [constantDerivation, htext]
    split
    · rename_i cs hcs
      exact absurd hcs (hstart cs)
    · rw [numeralDerivation_chars, hvalue]
  · refine ⟨n, Or.inr ⟨htext, hvalue, ?_⟩⟩
    rw [constantDerivation, htext]
    exact congrArg Derivation.negative (numeralDerivation_chars n)

/-! ## The tokens of expression texts -/

theorem writes_constant {v : α} (h : ReadsBack v) :
    Writes (Written.display v).toList (constantDerivation v).tokens := by
  obtain ⟨n, ⟨htext, hvalue, hd⟩ | ⟨htext, _, hd⟩⟩ := h.derivation_cases
  · rw [htext, hd, ← hvalue]
    exact .numeral n
  · rw [htext, hd]
    exact (Writes.numeral n).afterMark .minus

/-- **The tokens of the text of an expression are those of its derivation.** -/
theorem writes_display (e : Expr α) (hconstants : ∀ id v, e.Reaches (.const id v) → ReadsBack v)
    (hnames : ∀ id s, e.Reaches (.symbol id s) → isIdentifier s = true) :
    Writes e.display.toList e.derivation.tokens := by
  induction e with
  | const id v => exact writes_constant (hconstants id v (.self _))
  | symbol id s => exact .name (hnames id s (.self _))
  | unary id op a iha =>
      have hmem : a ∈ (Expr.unary id op a).operands := List.mem_singleton_self a
      have ha := iha (fun i v h => hconstants i v (.through hmem h))
        fun i s h => hnames i s (.through hmem h)
      -- the minus sign is written in front of its operand, all other operations as calls
      by_cases hneg : op = .neg
      · have htext := ((ha.afterMark .minus).join .rightParen .nil).afterMark .leftParen
        subst hneg
        simpa [Mark.char, Expr.display, Expr.derivation, Derivation.tokens] using htext
      · have hname : isIdentifier op.name = true := by cases op <;> decide
        have hcall := (Writes.name hname).join .leftParen (ha.join .rightParen .nil)
        obtain ⟨htext, hd⟩ := Expr.unary_text hneg id a
        rw [htext, hd]
        simpa [Mark.char, Derivation.tokens] using hcall
  | binary id op a b iha ihb =>
      have ha := iha (fun i v h => hconstants i v (.through List.mem_cons_self h))
        fun i s h => hnames i s (.through List.mem_cons_self h)
      have hmem : b ∈ (Expr.binary id op a b).operands := List.mem_cons_of_mem a List.mem_cons_self
      have hb := ihb (fun i v h => hconstants i v (.through hmem h))
        fun i s h => hnames i s (.through hmem h)
      -- only the power has no sign
      cases hsign : op.sign? with
      | some sign =>
          obtain ⟨m, hm, htokens⟩ := BinaryOp.exists_mark (α := α) hsign
          have hinfix := (ha.join m (hb.join .rightParen .nil)).afterMark .leftParen
          rw [Expr.derivation, Derivation.tokens, Derivation.tokens, htokens]
          simpa [Mark.char, Expr.display, hsign, ← hm] using hinfix
      | none =>
          obtain rfl : op = .pow := by cases op <;> first | rfl | cases hsign
          have hname : isIdentifier "pow" = true := by decide
          have hcall := (Writes.name hname).join .leftParen
            (ha.join .comma (hb.join .rightParen .nil))
          simpa [Mark.char, Expr.display, BinaryOp.sign?, Expr.derivation, BinaryOp.derivation,
            Derivation.tokens] using hcall

/-- **The text of an expression is read as its derivation says.** -/
theorem parseFormula_display (e : Expr α)
    (hconstants : ∀ id v, e.Reaches (.const id v) → ReadsBack v)
    (hnames : ∀ id s, e.Reaches (.symbol id s) → isIdentifier s = true) :
    parseFormula e.display = .ok e.derivation.meaning := by
  obtain ⟨placed, hscan, htokens⟩ := (writes_display e hconstants hnames).scans 0
  have hparse := parseTokens_of_tokens e.display.utf8ByteSize e.derivation.asSum
    (htokens.trans e.derivation.tokens_asSum.symm)
  rw [parseFormula, tokenize, hscan]
  dsimp only
  rw [hparse]
  rfl

end ExplicitOde
