import ExplicitOde.Formula.Parse
import Mathlib.Logic.Function.Defs

/-!
# The grammar of formulas

The grammar of `parseTokens`, as rules of their own:

    sum     := product (('+' | '-') product)*
    product := unary (('*' | '/') unary)*
    unary   := ('-' | '+') unary | power
    power   := primary ('^' unary)?
    primary := number | name | name '(' ')' | name '(' sum (',' sum)* ')' | '(' sum ')'

A `Derivation` is a tree of applications of these rules, with a constructor for each alternative. It
has a row of tokens and a meaning. **A row of tokens has one derivation at most**:
`Derivation.eq_of_tokens`. The next token always tells which alternative is meant, because no text
of a rule may be followed by a mark with which that text could have gone on.
-/

namespace ExplicitOde

namespace Grammar

/-- The rules. Repetitions are rules of their own: rows of further summands and of further
factors. -/
inductive Rule where
  | sum | summands | product | factors | unary | power | primary | arguments
  deriving DecidableEq

/-- The signs between summands. -/
inductive SumSign where
  | plus | minus

namespace SumSign

/-- The mark of a sign. -/
def mark : SumSign → Mark
  | plus => .plus
  | minus => .minus

/-- The operation of a sign. -/
def op : SumSign → BinaryOp
  | plus => .add
  | minus => .sub

theorem mark_injective {s s' : SumSign} (h : s.mark = s'.mark) : s = s' := by
  cases s <;> cases s' <;> first | rfl | exact Mark.noConfusion h

end SumSign

/-- The signs between factors. -/
inductive ProductSign where
  | times | divide

namespace ProductSign

/-- The mark of a sign. -/
def mark : ProductSign → Mark
  | times => .star
  | divide => .slash

/-- The operation of a sign. -/
def op : ProductSign → BinaryOp
  | times => .mul
  | divide => .div

theorem mark_injective {s s' : ProductSign} (h : s.mark = s'.mark) : s = s' := by
  cases s <;> cases s' <;> first | rfl | exact Mark.noConfusion h

end ProductSign

/-- A derivation of a text by a rule, over numbers `α`. -/
inductive Derivation (α : Type) : Rule → Type where
  | sum (first : Derivation α .product) (others : Derivation α .summands) : Derivation α .sum
  | noSummand : Derivation α .summands
  | summand (sign : SumSign) (next : Derivation α .product) (others : Derivation α .summands) :
      Derivation α .summands
  | product (first : Derivation α .unary) (others : Derivation α .factors) : Derivation α .product
  | noFactor : Derivation α .factors
  | factor (sign : ProductSign) (next : Derivation α .unary) (others : Derivation α .factors) :
      Derivation α .factors
  | negative (inner : Derivation α .unary) : Derivation α .unary
  | positive (inner : Derivation α .unary) : Derivation α .unary
  | unsigned (inner : Derivation α .power) : Derivation α .unary
  | base (inner : Derivation α .primary) : Derivation α .power
  | raised (inner : Derivation α .primary) (exponent : Derivation α .unary) : Derivation α .power
  | number (value : α) : Derivation α .primary
  | name (text : String) : Derivation α .primary
  | callOfNone (function : String) : Derivation α .primary
  | call (function : String) (args : Derivation α .arguments) : Derivation α .primary
  | group (inner : Derivation α .sum) : Derivation α .primary
  | argument (only : Derivation α .sum) : Derivation α .arguments
  | moreArguments (first : Derivation α .sum) (others : Derivation α .arguments) :
      Derivation α .arguments

/-- What texts of a rule stand for. Further summands and factors extend a formula on their left. -/
def Rule.Meaning (α : Type) : Rule → Type
  | .summands | .factors => Formula α → Formula α
  | .arguments => List (Formula α)
  | _ => Formula α

namespace Derivation

variable {α : Type} {r : Rule} {rest : List (Token α)}

/-- The tokens of a derived text. -/
@[simp] def tokens : {r : Rule} → Derivation α r → List (Token α)
  | _, sum first others => first.tokens ++ others.tokens
  | _, noSummand => []
  | _, summand sign next others => .mark sign.mark :: (next.tokens ++ others.tokens)
  | _, product first others => first.tokens ++ others.tokens
  | _, noFactor => []
  | _, factor sign next others => .mark sign.mark :: (next.tokens ++ others.tokens)
  | _, negative inner => .mark .minus :: inner.tokens
  | _, positive inner => .mark .plus :: inner.tokens
  | _, unsigned inner => inner.tokens
  | _, base inner => inner.tokens
  | _, raised inner exponent => inner.tokens ++ .mark .caret :: exponent.tokens
  | _, number v => [.number v]
  | _, name s => [.name s]
  | _, callOfNone f => [.name f, .mark .leftParen, .mark .rightParen]
  | _, call f args => .name f :: .mark .leftParen :: (args.tokens ++ [.mark .rightParen])
  | _, group inner => .mark .leftParen :: (inner.tokens ++ [.mark .rightParen])
  | _, argument only => only.tokens
  | _, moreArguments first others => first.tokens ++ .mark .comma :: others.tokens

/-- The meaning of a derived text. Summands and factors are taken into the formula from left to
right, the exponent of a power is all of the sign, power or primary after the caret, a minus sign is
outside of the power after it, and neither plus signs nor parentheses leave a trace. -/
@[simp] def meaning : {r : Rule} → Derivation α r → r.Meaning α
  | _, sum first others => others.meaning first.meaning
  | _, noSummand => fun lhs => lhs
  | _, summand sign next others => fun lhs => others.meaning (.binary sign.op lhs next.meaning)
  | _, product first others => others.meaning first.meaning
  | _, noFactor => fun lhs => lhs
  | _, factor sign next others => fun lhs => others.meaning (.binary sign.op lhs next.meaning)
  | _, negative inner => .neg inner.meaning
  | _, positive inner => inner.meaning
  | _, unsigned inner => inner.meaning
  | _, base inner => inner.meaning
  | _, raised inner exponent => .binary .pow inner.meaning exponent.meaning
  | _, number v => .number v
  | _, name s => .name s
  | _, callOfNone f => .call f []
  | _, call f args => .call f args.meaning
  | _, group inner => inner.meaning
  | _, argument only => [only.meaning]
  | _, moreArguments first others => first.meaning :: others.meaning

end Derivation

/-! ## Where texts begin and end -/

namespace Rule

variable {α : Type} {r r' : Rule} {rest : List (Token α)}

/-- The marks with which a text of the rule may go on where it could also end. -/
def goesOn : Rule → List Mark
  | primary => [.leftParen]
  | power | unary => [.leftParen, .caret]
  | product | factors => [.leftParen, .caret, .star, .slash]
  | sum | summands => [.leftParen, .caret, .star, .slash, .plus, .minus]
  | arguments => [.leftParen, .caret, .star, .slash, .plus, .minus, .comma]

/-- The marks with which a text of the rule may begin. -/
def begins : Rule → List Mark
  | primary | power => [.leftParen]
  | unary | product | sum | arguments => [.leftParen, .minus, .plus]
  | summands => [.plus, .minus]
  | factors => [.star, .slash]

/-- A text of the rule ends where these tokens follow. -/
def Stops (r : Rule) (rest : List (Token α)) : Prop :=
  ∀ m ∈ r.goesOn, rest.head? ≠ some (.mark m)

theorem Stops.mono (h : r.Stops rest) (hsub : r'.goesOn ⊆ r.goesOn) : r'.Stops rest :=
  fun m hm => h m (hsub hm)

theorem stops_nil (r : Rule) : r.Stops ([] : List (Token α)) :=
  fun _ _ h => nomatch h

theorem stops_mark {m : Mark} (h : m ∉ r.goesOn) : r.Stops (.mark m :: rest) := by
  intro m' hm' heq
  rw [List.head?_cons, Option.some.injEq, Token.mark.injEq] at heq
  exact h (heq ▸ hm')

end Rule

namespace Derivation

variable {α : Type} {r : Rule} {rest : List (Token α)}

/-- A mark at the front of a text of a rule is one with which the rule begins. Only the rows of
further summands and factors may be empty, so that what follows them is at the front. -/
theorem mem_begins (d : Derivation α r) (hr : r ∉ [.summands, .factors]) :
    ∀ {m : Mark} {rest : List (Token α)}, (d.tokens ++ rest).head? = some (.mark m) →
      m ∈ r.begins := by
  induction d with
  | noSummand | summand | noFactor | factor => exact absurd hr (by decide)
  | sum first others ih | product first others ih | raised first others ih
  | moreArguments first others ih =>
      intro m rest h
      rw [tokens, List.append_assoc] at h
      exact ih (by decide) h
  | base inner ih | argument only ih => exact ih (by decide)
  | unsigned inner ih =>
      intro m rest h
      have hsub : Rule.power.begins ⊆ Rule.unary.begins := by decide
      exact hsub (ih (by decide) h)
  | number | name | callOfNone | call => exact fun h => by simp [tokens] at h
  | negative | positive | group =>
      intro m rest h
      simp only [tokens, List.cons_append, List.head?_cons, Option.some.injEq,
        Token.mark.injEq] at h
      exact h ▸ by decide

/-- What follows a product in a sum does not go on with the product. -/
theorem stops_product (d : Derivation α .summands) (h : Rule.summands.Stops rest) :
    Rule.product.Stops (d.tokens ++ rest) := by
  cases d with
  | noSummand => exact h.mono (by decide)
  | summand sign => cases sign <;> exact Rule.stops_mark (by decide)

/-- What follows a factor in a product does not go on with the factor. -/
theorem stops_unary (d : Derivation α .factors) (h : Rule.factors.Stops rest) :
    Rule.unary.Stops (d.tokens ++ rest) := by
  cases d with
  | noFactor => exact h.mono (by decide)
  | factor sign => cases sign <;> exact Rule.stops_mark (by decide)

/-- No other derivation by the rule has the tokens of this one, whatever follows on both sides that
ends such texts. -/
def Determined (d : Derivation α r) : Prop :=
  ∀ ⦃d' : Derivation α r⦄ ⦃rest rest' : List (Token α)⦄, d.tokens ++ rest = d'.tokens ++ rest' →
    r.Stops rest → r.Stops rest' → d = d' ∧ rest = rest'

namespace Determined

theorem sum {first : Derivation α .product} {others : Derivation α .summands}
    (hfirst : first.Determined) (hothers : others.Determined) :
    (Derivation.sum first others).Determined := by
  intro d' rest rest' h hr hr'
  cases d' with
  | sum first' others' =>
      rw [tokens, tokens, List.append_assoc, List.append_assoc] at h
      obtain ⟨rfl, hback⟩ := hfirst h (others.stops_product hr) (others'.stops_product hr')
      obtain ⟨rfl, hrest⟩ := hothers hback hr hr'
      exact ⟨rfl, hrest⟩

theorem noSummand : (Derivation.noSummand : Derivation α _).Determined := by
  intro d' rest rest' h hr hr'
  cases d' with
  | noSummand => exact ⟨rfl, h⟩
  | summand sign =>
      cases sign <;> exact absurd (congrArg List.head? h) (hr _ (by decide))

theorem summand (sign : SumSign) {next : Derivation α .product} {others : Derivation α .summands}
    (hnext : next.Determined) (hothers : others.Determined) :
    (Derivation.summand sign next others).Determined := by
  intro d' rest rest' h hr hr'
  cases d' with
  | noSummand =>
      cases sign <;> exact absurd (congrArg List.head? h).symm (hr' _ (by decide))
  | summand sign' next' others' =>
      simp only [tokens, List.cons_append, List.cons.injEq, Token.mark.injEq,
        List.append_assoc] at h
      obtain rfl := SumSign.mark_injective h.1
      obtain ⟨rfl, hback⟩ := hnext h.2 (others.stops_product hr) (others'.stops_product hr')
      obtain ⟨rfl, hrest⟩ := hothers hback hr hr'
      exact ⟨rfl, hrest⟩

theorem product {first : Derivation α .unary} {others : Derivation α .factors}
    (hfirst : first.Determined) (hothers : others.Determined) :
    (Derivation.product first others).Determined := by
  intro d' rest rest' h hr hr'
  cases d' with
  | product first' others' =>
      rw [tokens, tokens, List.append_assoc, List.append_assoc] at h
      obtain ⟨rfl, hback⟩ := hfirst h (others.stops_unary hr) (others'.stops_unary hr')
      obtain ⟨rfl, hrest⟩ := hothers hback hr hr'
      exact ⟨rfl, hrest⟩

theorem noFactor : (Derivation.noFactor : Derivation α _).Determined := by
  intro d' rest rest' h hr hr'
  cases d' with
  | noFactor => exact ⟨rfl, h⟩
  | factor sign =>
      cases sign <;> exact absurd (congrArg List.head? h) (hr _ (by decide))

theorem factor (sign : ProductSign) {next : Derivation α .unary} {others : Derivation α .factors}
    (hnext : next.Determined) (hothers : others.Determined) :
    (Derivation.factor sign next others).Determined := by
  intro d' rest rest' h hr hr'
  cases d' with
  | noFactor =>
      cases sign <;> exact absurd (congrArg List.head? h).symm (hr' _ (by decide))
  | factor sign' next' others' =>
      simp only [tokens, List.cons_append, List.cons.injEq, Token.mark.injEq,
        List.append_assoc] at h
      obtain rfl := ProductSign.mark_injective h.1
      obtain ⟨rfl, hback⟩ := hnext h.2 (others.stops_unary hr) (others'.stops_unary hr')
      obtain ⟨rfl, hrest⟩ := hothers hback hr hr'
      exact ⟨rfl, hrest⟩

theorem negative {inner : Derivation α .unary} (hinner : inner.Determined) :
    (Derivation.negative inner).Determined := by
  intro d' rest rest' h hr hr'
  cases d' with
  | negative inner' =>
      obtain ⟨rfl, hrest⟩ := hinner (List.cons.inj h).2 hr hr'
      exact ⟨rfl, hrest⟩
  | positive inner' => exact absurd (List.cons.inj h).1 (by simp)
  | unsigned inner' =>
      exact absurd (inner'.mem_begins (by decide) (congrArg List.head? h).symm) (by decide)

theorem positive {inner : Derivation α .unary} (hinner : inner.Determined) :
    (Derivation.positive inner).Determined := by
  intro d' rest rest' h hr hr'
  cases d' with
  | negative inner' => exact absurd (List.cons.inj h).1 (by simp)
  | positive inner' =>
      obtain ⟨rfl, hrest⟩ := hinner (List.cons.inj h).2 hr hr'
      exact ⟨rfl, hrest⟩
  | unsigned inner' =>
      exact absurd (inner'.mem_begins (by decide) (congrArg List.head? h).symm) (by decide)

theorem unsigned {inner : Derivation α .power} (hinner : inner.Determined) :
    (Derivation.unsigned inner).Determined := by
  intro d' rest rest' h hr hr'
  cases d' with
  | negative | positive =>
      exact absurd (inner.mem_begins (by decide) (congrArg List.head? h)) (by decide)
  | unsigned inner' =>
      obtain ⟨rfl, hrest⟩ := hinner h hr hr'
      exact ⟨rfl, hrest⟩

theorem base {inner : Derivation α .primary} (hinner : inner.Determined) :
    (Derivation.base inner).Determined := by
  intro d' rest rest' h hr hr'
  cases d' with
  | base inner' =>
      obtain ⟨rfl, hrest⟩ := hinner h (hr.mono (by decide)) (hr'.mono (by decide))
      exact ⟨rfl, hrest⟩
  | raised inner' exponent =>
      rw [tokens, tokens, List.append_assoc] at h
      obtain ⟨_, hcaret⟩ := hinner h (hr.mono (by decide)) (Rule.stops_mark (by decide))
      exact absurd (congrArg List.head? hcaret) (hr _ (by decide))

theorem raised {inner : Derivation α .primary} {exponent : Derivation α .unary}
    (hinner : inner.Determined) (hexponent : exponent.Determined) :
    (Derivation.raised inner exponent).Determined := by
  intro d' rest rest' h hr hr'
  cases d' with
  | base inner' =>
      rw [tokens, tokens, List.append_assoc] at h
      obtain ⟨_, hcaret⟩ := hinner h (Rule.stops_mark (by decide)) (hr'.mono (by decide))
      exact absurd (congrArg List.head? hcaret).symm (hr' _ (by decide))
  | raised inner' exponent' =>
      rw [tokens, tokens, List.append_assoc, List.append_assoc] at h
      obtain ⟨rfl, hcaret⟩ := hinner h (Rule.stops_mark (by decide)) (Rule.stops_mark (by decide))
      obtain ⟨rfl, hrest⟩ := hexponent (List.cons.inj hcaret).2 hr hr'
      exact ⟨rfl, hrest⟩

theorem number (v : α) : (Derivation.number v : Derivation α _).Determined := by
  intro d' rest rest' h hr hr'
  cases d' with
  | number => simp_all [tokens]
  | name | callOfNone | call | group => simp [tokens] at h

theorem name (s : String) : (Derivation.name s : Derivation α _).Determined := by
  intro d' rest rest' h hr hr'
  cases d' with
  | number | group => simp [tokens] at h
  | name => simp_all [tokens]
  | callOfNone | call =>
      exact absurd (congrArg List.head? (List.cons.inj h).2) (hr _ (by decide))

theorem callOfNone (f : String) : (Derivation.callOfNone f : Derivation α _).Determined := by
  intro d' rest rest' h hr hr'
  cases d' with
  | number | group => simp [tokens] at h
  | name => exact absurd (congrArg List.head? (List.cons.inj h).2).symm (hr' _ (by decide))
  | callOfNone => simp_all [tokens]
  | call f' args =>
      simp only [tokens, List.cons_append, List.cons.injEq, List.append_assoc] at h
      exact absurd (args.mem_begins (by decide) (congrArg List.head? h.2.2).symm) (by decide)

theorem call (f : String) {args : Derivation α .arguments} (hargs : args.Determined) :
    (Derivation.call f args).Determined := by
  intro d' rest rest' h hr hr'
  cases d' with
  | number | group => simp [tokens] at h
  | name => exact absurd (congrArg List.head? (List.cons.inj h).2).symm (hr' _ (by decide))
  | callOfNone =>
      simp only [tokens, List.cons_append, List.cons.injEq, List.append_assoc] at h
      exact absurd (args.mem_begins (by decide) (congrArg List.head? h.2.2)) (by decide)
  | call f' args' =>
      simp only [tokens, List.cons_append, List.cons.injEq, Token.name.injEq,
        List.append_assoc] at h
      obtain ⟨rfl, hclose⟩ :=
        hargs h.2.2 (Rule.stops_mark (by decide)) (Rule.stops_mark (by decide))
      exact ⟨by rw [h.1], (List.cons.inj hclose).2⟩

theorem group {inner : Derivation α .sum} (hinner : inner.Determined) :
    (Derivation.group inner).Determined := by
  intro d' rest rest' h hr hr'
  cases d' with
  | number | name | callOfNone | call => simp [tokens] at h
  | group inner' =>
      simp only [tokens, List.cons_append, List.cons.injEq, List.append_assoc] at h
      obtain ⟨rfl, hclose⟩ := hinner h.2 (Rule.stops_mark (by decide)) (Rule.stops_mark (by decide))
      exact ⟨rfl, (List.cons.inj hclose).2⟩

theorem argument {only : Derivation α .sum} (honly : only.Determined) :
    (Derivation.argument only).Determined := by
  intro d' rest rest' h hr hr'
  cases d' with
  | argument only' =>
      obtain ⟨rfl, hrest⟩ := honly h (hr.mono (by decide)) (hr'.mono (by decide))
      exact ⟨rfl, hrest⟩
  | moreArguments first others =>
      rw [tokens, tokens, List.append_assoc] at h
      obtain ⟨_, hcomma⟩ := honly h (hr.mono (by decide)) (Rule.stops_mark (by decide))
      exact absurd (congrArg List.head? hcomma) (hr _ (by decide))

theorem moreArguments {first : Derivation α .sum} {others : Derivation α .arguments}
    (hfirst : first.Determined) (hothers : others.Determined) :
    (Derivation.moreArguments first others).Determined := by
  intro d' rest rest' h hr hr'
  cases d' with
  | argument only =>
      rw [tokens, tokens, List.append_assoc] at h
      obtain ⟨_, hcomma⟩ := hfirst h (Rule.stops_mark (by decide)) (hr'.mono (by decide))
      exact absurd (congrArg List.head? hcomma).symm (hr' _ (by decide))
  | moreArguments first' others' =>
      rw [tokens, tokens, List.append_assoc, List.append_assoc] at h
      obtain ⟨rfl, hcomma⟩ := hfirst h (Rule.stops_mark (by decide)) (Rule.stops_mark (by decide))
      obtain ⟨rfl, hrest⟩ := hothers (List.cons.inj hcomma).2 hr hr'
      exact ⟨rfl, hrest⟩

end Determined

/-- **A row of tokens has one derivation by a rule**, whatever follows it that ends such texts. -/
theorem eq_of_tokens (d : Derivation α r) : d.Determined := by
  induction d with
  | sum _ _ ihf iho => exact .sum ihf iho
  | noSummand => exact .noSummand
  | summand sign _ _ ihn iho => exact .summand sign ihn iho
  | product _ _ ihf iho => exact .product ihf iho
  | noFactor => exact .noFactor
  | factor sign _ _ ihn iho => exact .factor sign ihn iho
  | negative _ ih => exact .negative ih
  | positive _ ih => exact .positive ih
  | unsigned _ ih => exact .unsigned ih
  | base _ ih => exact .base ih
  | raised _ _ ihi ihe => exact .raised ihi ihe
  | number v => exact .number v
  | name s => exact .name s
  | callOfNone f => exact .callOfNone f
  | call f _ ih => exact .call f ih
  | group _ ih => exact .group ih
  | argument _ ih => exact .argument ih
  | moreArguments _ _ ihf iho => exact .moreArguments ihf iho

end Derivation

end Grammar

end ExplicitOde
