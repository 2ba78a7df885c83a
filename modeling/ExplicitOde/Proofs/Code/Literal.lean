import ExplicitOde.Code.Statement
import ExplicitOde.Proofs.C.Machine
import ExplicitOde.Proofs.C.Operand
import ExplicitOde.Scalar.Double

/-!
# Literals

What is written for a number is read by C as one operand: a constant, a macro, or one of these with
a minus sign inside parentheses. The sign never meets another sign outside the parentheses, so that
the literal of a negative number can be negated, added or subtracted like any other operand.

That a number has a decimal numeral is all that this rests on; the shortest decimal of a double is
one.
-/

namespace ExplicitOde

open C

/-! ## Decimal numerals -/

theorem C.Digits.append_zeros {ds : List Char} (h : Digits ds) (n : Nat) :
    Digits (ds ++ List.replicate n '0') := by
  refine ⟨List.append_ne_nil_of_left_ne_nil h.1 _, fun c hc => ?_⟩
  rcases List.mem_append.mp hc with hc | hc
  · exact h.2 c hc
  · rw [List.eq_of_mem_replicate hc]
    rfl

namespace Layout

/-- A digit row with its point is a numeral. -/
theorem numeral_plainText {digits : List Char} (h : Digits digits) (point : Int) :
    C.Numeral (literal.plainText digits point) := by
  have hzero : Digits ['0'] := ⟨List.cons_ne_nil _ _, List.forall_mem_singleton.mpr rfl⟩
  rw [plainText]
  split
  · -- zeros stand between the last digit and the point
    exact .point (h.append_zeros _) hzero (Or.inl rfl)
  · rename_i hcount
    split
    · -- the point stands between two digits
      rename_i hpoint
      have htake : digits.take point.toNat ≠ [] := by
        rw [← List.length_pos_iff, List.length_take]
        omega
      have hdrop : digits.drop point.toNat ≠ [] := by
        rw [← List.length_pos_iff, List.length_drop]
        omega
      have hwhole : Digits (digits.take point.toNat) :=
        ⟨htake, fun c hc => h.2 c (List.mem_of_mem_take hc)⟩
      have hfraction : Digits (digits.drop point.toNat) :=
        ⟨hdrop, fun c hc => h.2 c (List.mem_of_mem_drop hc)⟩
      have hnumeral := C.Numeral.point hwhole hfraction (Or.inl rfl)
      rw [List.append_nil] at hnumeral
      exact hnumeral
    · -- zeros stand between the point and the first digit
      have hfraction : Digits (List.replicate (-point).toNat '0' ++ digits) := by
        refine ⟨List.append_ne_nil_of_right_ne_nil _ h.1, fun c hc => ?_⟩
        rcases List.mem_append.mp hc with hc | hc
        · rw [List.eq_of_mem_replicate hc]
          rfl
        · exact h.2 c hc
      have hnumeral := C.Numeral.point hzero hfraction (Or.inl rfl)
      rw [List.append_nil] at hnumeral
      exact hnumeral

/-- One digit before the point and an exponent are a numeral. -/
theorem numeral_scientificText {digits : List Char} (h : Digits digits) (lead : Int) :
    C.Numeral (literal.scientificText digits lead) := by
  have htail : ExponentPart
      ('e' :: ((if lead < 0 then ['-'] else []) ++ decimalDigits lead.natAbs)) := by
    refine Or.inr ⟨_, _, rfl, ?_, digits_toDigits _⟩
    split
    · exact Or.inr rfl
    · exact Or.inl rfl
  have htake : digits.take 1 ≠ [] := by
    have hpos := List.length_pos_iff.mpr h.1
    rw [← List.length_pos_iff, List.length_take]
    omega
  have hwhole : Digits (digits.take 1) := ⟨htake, fun c hc => h.2 c (List.mem_of_mem_take hc)⟩
  have htext : literal.scientificText digits lead =
      digits.take 1 ++ (if digits.length ≤ 1 then [] else '.' :: digits.drop 1) ++
        'e' :: ((if lead < 0 then ['-'] else []) ++ decimalDigits lead.natAbs) := by
    rw [scientificText]
    simp [literal]
  rw [htext]
  -- a single digit has no point behind it
  split
  · rw [List.append_nil]
    exact .exponent hwhole htail (List.cons_ne_nil _ _)
  · rename_i hlen
    have hdrop : digits.drop 1 ≠ [] := by
      rw [← List.length_pos_iff, List.length_drop]
      omega
    rw [List.append_assoc, List.cons_append]
    exact .point hwhole ⟨hdrop, fun c hc => h.2 c (List.mem_of_mem_drop hc)⟩ htail

/-- What is written for a decimal fraction as a literal is a numeral. -/
theorem numeral_decimalText (d : Decimal) : C.Numeral (literal.decimalText d) := by
  have hdigits : Digits (decimalDigits d.coefficient) := digits_toDigits _
  rw [decimalText]
  split
  · exact numeral_plainText hdigits _
  · exact numeral_scientificText hdigits _

end Layout

/-- Numbers of which the literals are numerals, with a minus sign before them or without, unless
they are infinite or no numbers. -/
class LawfulWritten (α : Type) [Written α] : Prop where
  literal (v : α) : Written.isNaN v = false → Written.infinite? v = none →
    ∃ digits, C.Numeral digits ∧
      ((Written.literal v).toList = digits ∨ (Written.literal v).toList = '-' :: digits)

instance : LawfulWritten Float where
  literal v hnan hinfinite := by
    have hnan : v.isNaN = false := hnan
    have hinfinite : v.isInf = false := by
      by_contra h
      rw [Bool.not_eq_false] at h
      have hinfinite : (if v.isInf then some (v < 0.0 : Bool) else none) = none := hinfinite
      rw [h, if_pos rfl] at hinfinite
      injection hinfinite
    have htext : Written.literal v = (if v.toBits.toNat / Nat.pow 2 63 == 1 then "-" else "") ++
        String.ofList (Layout.literal.decimalText (Decimal.ofDouble Layout.literal.tie v)) := by
      show Layout.literal.write v = _
      rw [Layout.write, hnan, hinfinite, if_neg Bool.false_ne_true, if_neg Bool.false_ne_true]
    refine ⟨_, Layout.numeral_decimalText (Decimal.ofDouble Layout.literal.tie v), ?_⟩
    rw [htext, String.toList_append, String.toList_ofList]
    split
    · exact Or.inr rfl
    · exact Or.inl rfl

/-! ## Literals as operands -/

namespace Code

variable {α : Type} [Written α]

/-- What the literal of a number is read as. -/
def literalTerm (floats : FloatWidth) (v : α) : C.Term :=
  if Written.isNaN v then .name "NAN"
  else
    match Written.infinite? v with
    | some negative => if negative then .neg (.name "INFINITY") else .name "INFINITY"
    | none =>
      let text := Written.literal v ++ floats.ending
      if text.toList.head? == some '-' then .neg (.number (String.ofList (text.toList.drop 1)))
      else .number text

theorem floatingEnding (floats : FloatWidth) : FloatingEnding floats.ending.toList := by
  cases floats
  · exact Or.inr rfl
  · exact Or.inl rfl

/-- What a literal consists of besides a sign: a macro, or a numeral. -/
inductive IsMagnitude : String → Term → Prop where
  | named {w : String} (h : w ∈ macros) : IsMagnitude w (.name w)
  | numeral {cs ending : List Char} (h : C.Numeral cs) (hending : FloatingEnding ending) :
      IsMagnitude (String.ofList (cs ++ ending)) (.number (String.ofList (cs ++ ending)))

/-- A magnitude, or one with a minus sign inside parentheses. -/
inductive IsLiteral : String → Term → Prop where
  | plain {text : String} {a : Term} (h : IsMagnitude text a) : IsLiteral text a
  | negative {text : String} {a : Term} (h : IsMagnitude text a) :
      IsLiteral ("(-" ++ text ++ ")") (.neg a)

/-- Every number has such a literal. -/
theorem isLiteral_literal [LawfulWritten α] (floats : FloatWidth) (v : α) :
    IsLiteral (literal floats v) (literalTerm floats v) := by
  rw [literal, literalTerm]
  split
  · exact .plain (.named (by decide))
  rename_i hnan
  cases hinfinite : Written.infinite? v with
  | some negative =>
      have hinfinity : IsMagnitude "INFINITY" (.name "INFINITY") := .named (by decide)
      cases negative with
      | false => exact .plain hinfinity
      | true => exact .negative hinfinity
  | none =>
      rw [Bool.not_eq_true] at hnan
      obtain ⟨digits, hdigits, htext⟩ := LawfulWritten.literal v hnan hinfinite
      have hnumeral := IsMagnitude.numeral hdigits (floatingEnding floats)
      dsimp only
      -- a numeral begins with a digit, so that a minus sign is a sign before it
      rcases htext with htext | htext
      · have hofList : Written.literal v ++ floats.ending =
            String.ofList (digits ++ floats.ending.toList) := by
          rw [← htext, String.ofList_append, String.ofList_toList, String.ofList_toList]
        have hhead : (String.ofList (digits ++ floats.ending.toList)).toList.head? ≠ some '-' := by
          obtain ⟨c, ds, rfl, hc⟩ := hdigits.head
          rw [String.toList_ofList]
          intro h
          injection h with h
          exact absurd (h ▸ hc) (by decide)
        rw [hofList, if_neg (by simpa using hhead), if_neg (by simpa using hhead)]
        exact .plain hnumeral
      · have hlist : (Written.literal v ++ floats.ending).toList =
            '-' :: (digits ++ floats.ending.toList) := by
          rw [String.toList_append, htext, List.cons_append]
        have hparentheses : "(" ++ (Written.literal v ++ floats.ending) ++ ")" =
            "(-" ++ String.ofList (digits ++ floats.ending.toList) ++ ")" := by
          rw [← String.toList_inj, String.toList_append, String.toList_append, hlist]
          simp [String.toList_append]
        rw [hlist, if_pos (by rfl), if_pos (by rfl), hparentheses]
        exact .negative hnumeral

theorem IsMagnitude.isOperand {text : String} {a : Term} (h : IsMagnitude text a) :
    IsOperand 0 text a := by
  have hnames : ∀ w ∈ macros, isIdentifier w = true ∧ w ∉ keywords := by decide
  cases h with
  | named h => exact isOperand_name (hnames _ h).1 (hnames _ h).2
  | numeral h hending => exact isOperand_numeral h hending

theorem IsLiteral.isOperand {text : String} {a : Term} (h : IsLiteral text a) :
    IsOperand 1 text a := by
  cases h with
  | plain h => exact h.isOperand.mono (Nat.zero_le 1)
  | negative h => exact h.isOperand.neg

/-- **The literal of a number is read as one operand.** -/
theorem isOperand_literal [LawfulWritten α] (floats : FloatWidth) (v : α) :
    IsOperand 1 (literal floats v) (literalTerm floats v) :=
  (isLiteral_literal floats v).isOperand

/-! ## The value of a literal -/

variable {β : Type} {meaning : Meaning β} {memory : Memory β} {locals : Locals β}

/-- The whole text of a literal is the one expression. -/
theorem readTerm_literal [LawfulWritten α] (floats : FloatWidth) (v : α) :
    readTerm (literal floats v) = some (literalTerm floats v) := by
  obtain ⟨ts, hspells, hreads⟩ := (isOperand_literal floats v).reads
  have hlex : lex (literal floats v).toList = some ts :=
    hspells.lex_eq fun c hc => absurd hc (by simp)
  have hlen : 2 ≤ ts.length + 1 :=
    Nat.succ_le_succ (List.length_pos_iff.mpr (hreads 1 (Nat.le_refl 1)).ne_nil)
  have hcomplete := complete_expression (fun n hn => (hreads n hn).complete) _ hlen []
    fun t ht => absurd ht (by simp)
  rw [List.append_nil] at hcomplete
  rw [readTerm, hlex, Option.bind_some, hcomplete]

theorem IsMagnitude.eval {text : String} {a : Term} (h : IsMagnitude text a) :
    ∃ x, ∀ (memory : Memory β) (locals : Locals β), MacrosFree locals →
      C.eval meaning memory locals a = some (.real x) := by
  cases h with
  | named h => exact ⟨_, fun _ _ hlocals => nameValue_macro hlocals h⟩
  | numeral h hending => exact ⟨_, fun _ _ _ => constantValue_numeral h hending⟩

theorem IsLiteral.eval {text : String} {a : Term} (h : IsLiteral text a) :
    ∃ x, ∀ (memory : Memory β) (locals : Locals β), MacrosFree locals →
      C.eval meaning memory locals a = some (.real x) := by
  cases h with
  | plain h => exact h.eval
  | negative h =>
      obtain ⟨x, hx⟩ := h.eval (β := β)
      refine ⟨meaning.neg x, fun memory locals hlocals => ?_⟩
      rw [C.eval, hx memory locals hlocals]

/-- **A literal has a value, which is a number and the same wherever the literal stands.** -/
theorem eval_literal [LawfulWritten α] (floats : FloatWidth) (v : α) :
    ∃ x, ∀ (memory : Memory β) (locals : Locals β), MacrosFree locals →
      eval meaning memory locals (literalTerm floats v) = some (.real x) :=
  (isLiteral_literal floats v).eval

end Code

end ExplicitOde
