import ExplicitOde.Proofs.Formula.Grammar

/-!
# The parser follows the grammar

**Completeness.** Each function of the parser reads every text of its rule, up to where the text
ends, and gives its meaning: `Derivation.reads`, with one lemma for each alternative of a rule.

**Soundness.** What a function of the parser reads is a text of its rule: `parseSum_derives` and
those beside it, which call each other as the functions of the parser do.

Together, `parseTokens` succeeds on the rows of tokens that have a derivation as a sum, with the
meaning of that derivation, and on no others.
-/

namespace ExplicitOde

namespace Grammar

variable {α : Type} {stop : Nat} {ts mid rest : List (Placed α)}

/-! ## Completeness -/

/-- The function of the parser for a rule reads the front of a row of tokens and leaves `rest`. -/
def Reads (stop : Nat) : (r : Rule) → List (Placed α) → r.Meaning α → List (Placed α) → Prop
  | .sum, ts, f, rest => ∃ h, parseSum stop ts = .ok ⟨f, rest, h⟩
  | .summands, ts, f, rest => ∀ lhs, ∃ h, parseSummands stop lhs ts = .ok ⟨f lhs, rest, h⟩
  | .product, ts, f, rest => ∃ h, parseProduct stop ts = .ok ⟨f, rest, h⟩
  | .factors, ts, f, rest => ∀ lhs, ∃ h, parseFactors stop lhs ts = .ok ⟨f lhs, rest, h⟩
  | .unary, ts, f, rest => ∃ h, parseUnary stop ts = .ok ⟨f, rest, h⟩
  | .power, ts, f, rest => ∃ h, parsePower stop ts = .ok ⟨f, rest, h⟩
  | .primary, ts, f, rest => ∃ h, parsePrimary stop ts = .ok ⟨f, rest, h⟩
  | .arguments, ts, args, rest => ∃ h, parseArguments stop ts = .ok ⟨args, rest, h⟩

theorem sumOp?_mark (sign : SumSign) : sumOp? sign.mark = some sign.op := by
  cases sign <;> rfl

theorem productOp?_mark (sign : ProductSign) : productOp? sign.mark = some sign.op := by
  cases sign <;> rfl

namespace Reads

theorem sum {f : Formula α} {g : Formula α → Formula α} (hf : Reads stop .product ts f mid)
    (hg : Reads stop .summands mid g rest) : Reads stop .sum ts (g f) rest := by
  obtain ⟨hmid, hf⟩ := hf
  obtain ⟨hrest, hg⟩ := hg f
  refine ⟨by omega, ?_⟩
  rw [parseSum, hf]
  dsimp only
  rw [hg]
  rfl

theorem noSummand (h : ∀ m ∈ Rule.summands.begins, (rest.map Prod.fst).head? ≠ some (.mark m)) :
    Reads stop .summands rest (fun lhs : Formula α => lhs) rest := by
  intro lhs
  refine ⟨Nat.lt_succ_self _, ?_⟩
  rw [parseSummands.eq_def]
  split
  · rename_i m offset ts
    have hnone : sumOp? m = none := by
      cases m <;> first | rfl | exact absurd rfl (h _ (by decide))
    rw [hnone]
  · rfl

theorem summand {sign : SumSign} {offset : Nat} {f : Formula α} {g : Formula α → Formula α}
    (hf : Reads stop .product ts f mid) (hg : Reads stop .summands mid g rest) :
    Reads stop .summands ((.mark sign.mark, offset) :: ts) (fun lhs => g (.binary sign.op lhs f))
      rest := by
  intro lhs
  obtain ⟨hmid, hf⟩ := hf
  obtain ⟨hrest, hg⟩ := hg (.binary sign.op lhs f)
  refine ⟨by rw [List.length_cons]; omega, ?_⟩
  rw [parseSummands, sumOp?_mark]
  dsimp only
  rw [hf]
  dsimp only
  rw [hg]
  rfl

theorem product {f : Formula α} {g : Formula α → Formula α} (hf : Reads stop .unary ts f mid)
    (hg : Reads stop .factors mid g rest) : Reads stop .product ts (g f) rest := by
  obtain ⟨hmid, hf⟩ := hf
  obtain ⟨hrest, hg⟩ := hg f
  refine ⟨by omega, ?_⟩
  rw [parseProduct, hf]
  dsimp only
  rw [hg]
  rfl

theorem noFactor (h : ∀ m ∈ Rule.factors.begins, (rest.map Prod.fst).head? ≠ some (.mark m)) :
    Reads stop .factors rest (fun lhs : Formula α => lhs) rest := by
  intro lhs
  refine ⟨Nat.lt_succ_self _, ?_⟩
  rw [parseFactors.eq_def]
  split
  · rename_i m offset ts
    have hnone : productOp? m = none := by
      cases m <;> first | rfl | exact absurd rfl (h _ (by decide))
    rw [hnone]
  · rfl

theorem factor {sign : ProductSign} {offset : Nat} {f : Formula α} {g : Formula α → Formula α}
    (hf : Reads stop .unary ts f mid) (hg : Reads stop .factors mid g rest) :
    Reads stop .factors ((.mark sign.mark, offset) :: ts) (fun lhs => g (.binary sign.op lhs f))
      rest := by
  intro lhs
  obtain ⟨hmid, hf⟩ := hf
  obtain ⟨hrest, hg⟩ := hg (.binary sign.op lhs f)
  refine ⟨by rw [List.length_cons]; omega, ?_⟩
  rw [parseFactors, productOp?_mark]
  dsimp only
  rw [hf]
  dsimp only
  rw [hg]
  rfl

theorem negative {offset : Nat} {f : Formula α} (hf : Reads stop .unary ts f rest) :
    Reads stop .unary ((.mark .minus, offset) :: ts) (.neg f) rest := by
  obtain ⟨hrest, hf⟩ := hf
  exact ⟨Nat.lt_succ_of_lt hrest, by rw [parseUnary, hf]⟩

theorem positive {offset : Nat} {f : Formula α} (hf : Reads stop .unary ts f rest) :
    Reads stop .unary ((.mark .plus, offset) :: ts) f rest := by
  obtain ⟨hrest, hf⟩ := hf
  exact ⟨Nat.lt_succ_of_lt hrest, by rw [parseUnary, hf]; rfl⟩

theorem unsigned {f : Formula α} (hf : Reads stop .power ts f rest)
    (h : ∀ m ∈ [Mark.minus, .plus], (ts.map Prod.fst).head? ≠ some (.mark m)) :
    Reads stop .unary ts f rest := by
  obtain ⟨hrest, hf⟩ := hf
  refine ⟨hrest, ?_⟩
  rw [parseUnary.eq_def]
  split
  · exact absurd rfl (h _ (by decide))
  · exact absurd rfl (h _ (by decide))
  · exact hf

theorem base {f : Formula α} (hf : Reads stop .primary ts f rest)
    (h : (rest.map Prod.fst).head? ≠ some (.mark .caret)) : Reads stop .power ts f rest := by
  obtain ⟨hrest, hf⟩ := hf
  refine ⟨hrest, ?_⟩
  rw [parsePower, hf]
  dsimp only
  split
  · exact absurd rfl h
  · rfl

theorem raised {offset : Nat} {f g : Formula α}
    (hf : Reads stop .primary ts f ((.mark .caret, offset) :: mid))
    (hg : Reads stop .unary mid g rest) : Reads stop .power ts (.binary .pow f g) rest := by
  obtain ⟨hmid, hf⟩ := hf
  obtain ⟨hrest, hg⟩ := hg
  refine ⟨by rw [List.length_cons] at hmid; omega, ?_⟩
  rw [parsePower, hf]
  dsimp only
  rw [hg]

theorem number (v : α) (offset : Nat) :
    Reads stop .primary ((.number v, offset) :: rest) (.number v) rest :=
  ⟨Nat.lt_succ_self _, by rw [parsePrimary]⟩

theorem name (s : String) (offset : Nat) (h : Rule.primary.Stops (rest.map Prod.fst)) :
    Reads stop .primary ((.name s, offset) :: rest) (.name s : Formula α) rest := by
  refine ⟨Nat.lt_succ_self _, ?_⟩
  rw [parsePrimary]
  · rintro _ _ _ rfl
    exact h _ (by decide) rfl
  · rintro _ _ rfl
    exact h _ (by decide) rfl

theorem callOfNone (f : String) (i j k : Nat) :
    Reads stop .primary
      ((.name f, i) :: (.mark .leftParen, j) :: (.mark .rightParen, k) :: rest)
      (.call f [] : Formula α) rest := by
  have hrest : rest.length < rest.length + 1 + 1 + 1 := by omega
  exact ⟨hrest, by rw [parsePrimary]⟩

theorem call {f : String} {i j k : Nat} {args : List (Formula α)}
    (hargs : Reads stop .arguments ts args ((.mark .rightParen, k) :: rest))
    (h : (ts.map Prod.fst).head? ≠ some (.mark .rightParen)) :
    Reads stop .primary ((.name f, i) :: (.mark .leftParen, j) :: ts) (.call f args) rest := by
  obtain ⟨hrest, hargs⟩ := hargs
  refine ⟨by simp only [List.length_cons] at hrest ⊢; omega, ?_⟩
  rw [parsePrimary, hargs]
  rintro _ _ rfl
  exact h rfl

theorem group {i k : Nat} {f : Formula α}
    (hf : Reads stop .sum ts f ((.mark .rightParen, k) :: rest)) :
    Reads stop .primary ((.mark .leftParen, i) :: ts) f rest := by
  obtain ⟨hrest, hf⟩ := hf
  refine ⟨by simp only [List.length_cons] at hrest ⊢; omega, ?_⟩
  rw [parsePrimary, hf]

theorem argument {f : Formula α} (hf : Reads stop .sum ts f rest)
    (h : (rest.map Prod.fst).head? ≠ some (.mark .comma)) :
    Reads stop .arguments ts [f] rest := by
  obtain ⟨hrest, hf⟩ := hf
  refine ⟨hrest, ?_⟩
  rw [parseArguments, hf]
  dsimp only
  split
  · exact absurd rfl h
  · rfl

theorem moreArguments {offset : Nat} {f : Formula α} {args : List (Formula α)}
    (hf : Reads stop .sum ts f ((.mark .comma, offset) :: mid))
    (hargs : Reads stop .arguments mid args rest) :
    Reads stop .arguments ts (f :: args) rest := by
  obtain ⟨hmid, hf⟩ := hf
  obtain ⟨hrest, hargs⟩ := hargs
  refine ⟨by rw [List.length_cons] at hmid; omega, ?_⟩
  rw [parseArguments, hf]
  dsimp only
  rw [hargs]

end Reads

/-- **The parser reads every text of the grammar**, if what follows does not go on with it. -/
theorem Derivation.reads {r : Rule} (d : Derivation α r) : ∀ {ts rest : List (Placed α)},
    ts.map Prod.fst = d.tokens → r.Stops (rest.map Prod.fst) →
    Reads stop r (ts ++ rest) d.meaning rest := by
  -- a row of tokens is split as the derivation is, and what follows a part is known from the next
  induction d with
  | sum first others ihf iho =>
      intro ts rest hts hrest
      obtain ⟨front, back, rfl, hfront, hback⟩ := List.map_eq_append_iff.mp hts
      rw [List.append_assoc]
      refine (ihf hfront ?_).sum (iho hback hrest)
      rw [List.map_append, hback]
      exact others.stops_product hrest
  | noSummand =>
      intro ts rest hts hrest
      obtain rfl := List.map_eq_nil_iff.mp hts
      have hsub : Rule.summands.begins ⊆ Rule.summands.goesOn := by decide
      exact .noSummand fun m hm => hrest m (hsub hm)
  | summand sign next others ihn iho =>
      intro ts rest hts hrest
      obtain ⟨⟨_, offset⟩, tail, rfl, rfl, htail⟩ := List.map_eq_cons_iff.mp hts
      obtain ⟨front, back, rfl, hfront, hback⟩ := List.map_eq_append_iff.mp htail
      rw [List.cons_append, List.append_assoc]
      refine (ihn hfront ?_).summand (iho hback hrest)
      rw [List.map_append, hback]
      exact others.stops_product hrest
  | product first others ihf iho =>
      intro ts rest hts hrest
      obtain ⟨front, back, rfl, hfront, hback⟩ := List.map_eq_append_iff.mp hts
      rw [List.append_assoc]
      refine (ihf hfront ?_).product (iho hback hrest)
      rw [List.map_append, hback]
      exact others.stops_unary hrest
  | noFactor =>
      intro ts rest hts hrest
      obtain rfl := List.map_eq_nil_iff.mp hts
      have hsub : Rule.factors.begins ⊆ Rule.factors.goesOn := by decide
      exact .noFactor fun m hm => hrest m (hsub hm)
  | factor sign next others ihn iho =>
      intro ts rest hts hrest
      obtain ⟨⟨_, offset⟩, tail, rfl, rfl, htail⟩ := List.map_eq_cons_iff.mp hts
      obtain ⟨front, back, rfl, hfront, hback⟩ := List.map_eq_append_iff.mp htail
      rw [List.cons_append, List.append_assoc]
      refine (ihn hfront ?_).factor (iho hback hrest)
      rw [List.map_append, hback]
      exact others.stops_unary hrest
  | negative inner ih =>
      intro ts rest hts hrest
      obtain ⟨⟨_, offset⟩, tail, rfl, rfl, htail⟩ := List.map_eq_cons_iff.mp hts
      exact (ih htail hrest).negative
  | positive inner ih =>
      intro ts rest hts hrest
      obtain ⟨⟨_, offset⟩, tail, rfl, rfl, htail⟩ := List.map_eq_cons_iff.mp hts
      exact (ih htail hrest).positive
  | unsigned inner ih =>
      intro ts rest hts hrest
      refine (ih hts hrest).unsigned fun m hm h => ?_
      rw [List.map_append, show ts.map Prod.fst = inner.tokens from hts] at h
      obtain rfl := List.mem_singleton.mp (inner.mem_begins (by decide) h)
      exact absurd hm (by decide)
  | base inner ih =>
      intro ts rest hts hrest
      exact (ih hts (hrest.mono (by decide))).base (hrest _ (by decide))
  | raised inner exponent ihi ihe =>
      intro ts rest hts hrest
      obtain ⟨front, back, rfl, hfront, hback⟩ := List.map_eq_append_iff.mp hts
      obtain ⟨⟨_, offset⟩, tail, rfl, rfl, htail⟩ := List.map_eq_cons_iff.mp hback
      rw [List.append_assoc]
      exact (ihi hfront (Rule.stops_mark (by decide))).raised (ihe htail hrest)
  | number v =>
      intro ts rest hts _
      obtain ⟨⟨_, offset⟩, tail, rfl, rfl, htail⟩ := List.map_eq_cons_iff.mp hts
      obtain rfl := List.map_eq_nil_iff.mp htail
      exact .number v offset
  | name s =>
      intro ts rest hts hrest
      obtain ⟨⟨_, offset⟩, tail, rfl, rfl, htail⟩ := List.map_eq_cons_iff.mp hts
      obtain rfl := List.map_eq_nil_iff.mp htail
      exact .name s offset hrest
  | callOfNone f =>
      intro ts rest hts _
      obtain ⟨⟨_, i⟩, args, rfl, rfl, hargs⟩ := List.map_eq_cons_iff.mp hts
      obtain ⟨⟨_, j⟩, close, rfl, rfl, hclose⟩ := List.map_eq_cons_iff.mp hargs
      obtain ⟨⟨_, k⟩, tail, rfl, rfl, htail⟩ := List.map_eq_cons_iff.mp hclose
      obtain rfl := List.map_eq_nil_iff.mp htail
      exact .callOfNone f i j k
  | call f list ih =>
      intro ts rest hts hrest
      obtain ⟨⟨_, i⟩, args, rfl, rfl, hargs⟩ := List.map_eq_cons_iff.mp hts
      obtain ⟨⟨_, j⟩, inner, rfl, rfl, hinner⟩ := List.map_eq_cons_iff.mp hargs
      obtain ⟨front, back, rfl, hfront, hback⟩ := List.map_eq_append_iff.mp hinner
      obtain ⟨⟨_, k⟩, tail, rfl, rfl, htail⟩ := List.map_eq_cons_iff.mp hback
      obtain rfl := List.map_eq_nil_iff.mp htail
      rw [List.cons_append, List.cons_append, List.append_assoc]
      refine (ih hfront (Rule.stops_mark (by decide))).call fun h => ?_
      rw [List.map_append, hfront] at h
      exact absurd (list.mem_begins (by decide) h) (by decide)
  | group inner ih =>
      intro ts rest hts hrest
      obtain ⟨⟨_, i⟩, inside, rfl, rfl, hinside⟩ := List.map_eq_cons_iff.mp hts
      obtain ⟨front, back, rfl, hfront, hback⟩ := List.map_eq_append_iff.mp hinside
      obtain ⟨⟨_, k⟩, tail, rfl, rfl, htail⟩ := List.map_eq_cons_iff.mp hback
      obtain rfl := List.map_eq_nil_iff.mp htail
      rw [List.cons_append, List.append_assoc]
      exact (ih hfront (Rule.stops_mark (by decide))).group
  | argument only ih =>
      intro ts rest hts hrest
      exact (ih hts (hrest.mono (by decide))).argument (hrest _ (by decide))
  | moreArguments first others ihf iho =>
      intro ts rest hts hrest
      obtain ⟨front, back, rfl, hfront, hback⟩ := List.map_eq_append_iff.mp hts
      obtain ⟨⟨_, offset⟩, tail, rfl, rfl, htail⟩ := List.map_eq_cons_iff.mp hback
      rw [List.append_assoc]
      exact (ihf hfront (Rule.stops_mark (by decide))).moreArguments (iho htail hrest)

/-! ## Soundness -/

/-- The front of a row of tokens is a text of a rule with this meaning, and `rest` follows. -/
def Derives (r : Rule) (ts : List (Placed α)) (meaning : r.Meaning α) (rest : List (Placed α)) :
    Prop :=
  ∃ d : Derivation α r, d.meaning = meaning ∧ ts.map Prod.fst = d.tokens ++ rest.map Prod.fst

theorem exists_sumSign {m : Mark} {op : BinaryOp} (h : sumOp? m = some op) :
    ∃ sign : SumSign, sign.mark = m ∧ sign.op = op := by
  cases m with
  | plus => exact ⟨.plus, rfl, Option.some.inj h⟩
  | minus => exact ⟨.minus, rfl, Option.some.inj h⟩
  | star | slash | caret | leftParen | rightParen | comma => exact nomatch h

theorem exists_productSign {m : Mark} {op : BinaryOp} (h : productOp? m = some op) :
    ∃ sign : ProductSign, sign.mark = m ∧ sign.op = op := by
  cases m with
  | star => exact ⟨.times, rfl, Option.some.inj h⟩
  | slash => exact ⟨.divide, rfl, Option.some.inj h⟩
  | plus | minus | caret | leftParen | rightParen | comma => exact nomatch h

/-- What is read from fewer than `n` tokens is a text of the rule by which it is read. -/
structure SoundBelow (α : Type) (stop n : Nat) : Prop where
  sum : ∀ {ts : List (Placed α)} {p}, ts.length < n → parseSum stop ts = .ok p →
    Derives .sum ts p.value p.rest
  summands : ∀ {lhs : Formula α} {ts : List (Placed α)} {p}, ts.length < n →
    parseSummands stop lhs ts = .ok p → ∃ d : Derivation α .summands,
      d.meaning lhs = p.value ∧ ts.map Prod.fst = d.tokens ++ p.rest.map Prod.fst
  product : ∀ {ts : List (Placed α)} {p}, ts.length < n → parseProduct stop ts = .ok p →
    Derives .product ts p.value p.rest
  factors : ∀ {lhs : Formula α} {ts : List (Placed α)} {p}, ts.length < n →
    parseFactors stop lhs ts = .ok p → ∃ d : Derivation α .factors,
      d.meaning lhs = p.value ∧ ts.map Prod.fst = d.tokens ++ p.rest.map Prod.fst
  unary : ∀ {ts : List (Placed α)} {p}, ts.length < n → parseUnary stop ts = .ok p →
    Derives .unary ts p.value p.rest
  arguments : ∀ {ts : List (Placed α)} {p}, ts.length < n → parseArguments stop ts = .ok p →
    Derives .arguments ts p.value p.rest

variable {n : Nat} {p : Parsed α (Formula α) ts.length} {lhs : Formula α}

theorem parsePrimary_derives (ih : SoundBelow α stop n) (hts : ts.length ≤ n)
    (h : parsePrimary stop ts = .ok p) : Derives .primary ts p.value p.rest := by
  rw [parsePrimary.eq_def] at h
  split at h
  · -- a number
    rename_i v _ _
    injection h with h
    subst h
    exact ⟨.number v, rfl, rfl⟩
  · -- a call without arguments
    rename_i f _ _ _ _
    injection h with h
    subst h
    exact ⟨.callOfNone f, rfl, rfl⟩
  · -- a call
    rename_i f _ _ ts _
    split at h
    · injection h
    · rename_i args hargs
      obtain ⟨d, hd, hfront⟩ := ih.arguments (by simp only [List.length_cons] at hts; omega) hargs
      dsimp only at h
      split at h
      · rename_i htail
        injection h with h
        subst h
        rw [htail] at hfront
        refine ⟨.call f d, congrArg (Formula.call f) hd, ?_⟩
        simp [Derivation.tokens, hfront]
      · injection h
  · -- a name
    rename_i s _ _ _ _
    injection h with h
    subst h
    exact ⟨.name s, rfl, rfl⟩
  · -- parentheses
    rename_i ts
    split at h
    · injection h
    · rename_i inner hinner
      obtain ⟨d, hd, hfront⟩ := ih.sum (by simp only [List.length_cons] at hts; omega) hinner
      dsimp only at h
      split at h
      · rename_i htail
        injection h with h
        subst h
        rw [htail] at hfront
        refine ⟨.group d, hd, ?_⟩
        simp [Derivation.tokens, hfront]
      · injection h
  · injection h
  · injection h

theorem parsePower_derives (ih : SoundBelow α stop n) (hts : ts.length ≤ n)
    (h : parsePower stop ts = .ok p) : Derives .power ts p.value p.rest := by
  rw [parsePower] at h
  split at h
  · injection h
  · rename_i inner hinner
    have hshorter := inner.shorter
    obtain ⟨d, hd, hfront⟩ := parsePrimary_derives ih hts hinner
    dsimp only at h
    split at h
    · rename_i tail htail
      rw [htail] at hfront hshorter
      rw [List.length_cons] at hshorter
      split at h
      · injection h
      · rename_i exponent hexponent
        injection h with h
        subst h
        obtain ⟨d', hd', hback⟩ := ih.unary (by omega) hexponent
        refine ⟨.raised d d', ?_, ?_⟩
        · rw [Derivation.meaning, hd, hd']
        · rw [hfront, List.map_cons, hback, Derivation.tokens, List.append_assoc]
          rfl
    · injection h with h
      subst h
      exact ⟨.base d, hd, hfront⟩

theorem parseUnary_derives (ih : SoundBelow α stop n) (hts : ts.length ≤ n)
    (h : parseUnary stop ts = .ok p) : Derives .unary ts p.value p.rest := by
  rw [parseUnary.eq_def] at h
  split at h
  · split at h
    · injection h
    · rename_i inner hinner
      injection h with h
      subst h
      obtain ⟨d, hd, hfront⟩ := ih.unary (by rw [List.length_cons] at hts; omega) hinner
      exact ⟨.negative d, congrArg Formula.neg hd, congrArg (Token.mark .minus :: ·) hfront⟩
  · split at h
    · injection h
    · rename_i inner hinner
      injection h with h
      subst h
      obtain ⟨d, hd, hfront⟩ := ih.unary (by rw [List.length_cons] at hts; omega) hinner
      exact ⟨.positive d, hd, congrArg (Token.mark .plus :: ·) hfront⟩
  · obtain ⟨d, hd, hfront⟩ := parsePower_derives ih hts h
    exact ⟨.unsigned d, hd, hfront⟩

theorem parseFactors_derives (ih : SoundBelow α stop n) (hts : ts.length ≤ n)
    {p : Parsed α (Formula α) (ts.length + 1)} (h : parseFactors stop lhs ts = .ok p) :
    ∃ d : Derivation α .factors,
      d.meaning lhs = p.value ∧ ts.map Prod.fst = d.tokens ++ p.rest.map Prod.fst := by
  rw [parseFactors.eq_def] at h
  split at h
  · rw [List.length_cons] at hts
    split at h
    · injection h with h
      subst h
      exact ⟨.noFactor, rfl, rfl⟩
    · rename_i op hop
      obtain ⟨sign, rfl, rfl⟩ := exists_productSign hop
      split at h
      · injection h
      · rename_i next hnext
        have hshorter := next.shorter
        split at h
        · injection h
        · rename_i all hall
          injection h with h
          subst h
          obtain ⟨d, hd, hfront⟩ := ih.unary (by omega) hnext
          obtain ⟨d', hd', hback⟩ := ih.factors (by omega) hall
          refine ⟨.factor sign d d', ?_, ?_⟩
          · rw [Derivation.meaning, hd]
            exact hd'
          · rw [Derivation.tokens, List.map_cons, hfront, hback, List.cons_append,
              List.append_assoc]
            rfl
  · injection h with h
    subst h
    exact ⟨.noFactor, rfl, rfl⟩

theorem parseProduct_derives (ih : SoundBelow α stop n) (hts : ts.length ≤ n)
    (h : parseProduct stop ts = .ok p) : Derives .product ts p.value p.rest := by
  rw [parseProduct] at h
  split at h
  · injection h
  · rename_i first hfirst
    have hshorter := first.shorter
    split at h
    · injection h
    · rename_i all hall
      injection h with h
      subst h
      obtain ⟨d, hd, hfront⟩ := parseUnary_derives ih hts hfirst
      obtain ⟨d', hd', hback⟩ := ih.factors (by omega) hall
      refine ⟨.product d d', ?_, ?_⟩
      · rw [Derivation.meaning, hd]
        exact hd'
      · rw [Derivation.tokens, hfront, hback, List.append_assoc]
        rfl

theorem parseSummands_derives (ih : SoundBelow α stop n) (hts : ts.length ≤ n)
    {p : Parsed α (Formula α) (ts.length + 1)} (h : parseSummands stop lhs ts = .ok p) :
    ∃ d : Derivation α .summands,
      d.meaning lhs = p.value ∧ ts.map Prod.fst = d.tokens ++ p.rest.map Prod.fst := by
  rw [parseSummands.eq_def] at h
  split at h
  · rw [List.length_cons] at hts
    split at h
    · injection h with h
      subst h
      exact ⟨.noSummand, rfl, rfl⟩
    · rename_i op hop
      obtain ⟨sign, rfl, rfl⟩ := exists_sumSign hop
      split at h
      · injection h
      · rename_i next hnext
        have hshorter := next.shorter
        split at h
        · injection h
        · rename_i all hall
          injection h with h
          subst h
          obtain ⟨d, hd, hfront⟩ := ih.product (by omega) hnext
          obtain ⟨d', hd', hback⟩ := ih.summands (by omega) hall
          refine ⟨.summand sign d d', ?_, ?_⟩
          · rw [Derivation.meaning, hd]
            exact hd'
          · rw [Derivation.tokens, List.map_cons, hfront, hback, List.cons_append,
              List.append_assoc]
            rfl
  · injection h with h
    subst h
    exact ⟨.noSummand, rfl, rfl⟩

theorem parseSum_derives (ih : SoundBelow α stop n) (hts : ts.length ≤ n)
    (h : parseSum stop ts = .ok p) : Derives .sum ts p.value p.rest := by
  rw [parseSum] at h
  split at h
  · injection h
  · rename_i first hfirst
    have hshorter := first.shorter
    split at h
    · injection h
    · rename_i all hall
      injection h with h
      subst h
      obtain ⟨d, hd, hfront⟩ := parseProduct_derives ih hts hfirst
      obtain ⟨d', hd', hback⟩ := ih.summands (by omega) hall
      refine ⟨.sum d d', ?_, ?_⟩
      · rw [Derivation.meaning, hd]
        exact hd'
      · rw [Derivation.tokens, hfront, hback, List.append_assoc]
        rfl

theorem parseArguments_derives (ih : SoundBelow α stop n) (hts : ts.length ≤ n)
    {p : Parsed α (List (Formula α)) ts.length} (h : parseArguments stop ts = .ok p) :
    Derives .arguments ts p.value p.rest := by
  rw [parseArguments] at h
  split at h
  · injection h
  · rename_i first hfirst
    have hshorter := first.shorter
    obtain ⟨d, hd, hfront⟩ := parseSum_derives ih hts hfirst
    dsimp only at h
    split at h
    · rename_i tail htail
      rw [htail] at hfront hshorter
      rw [List.length_cons] at hshorter
      split at h
      · injection h
      · rename_i others hothers
        injection h with h
        subst h
        obtain ⟨d', hd', hback⟩ := ih.arguments (by omega) hothers
        refine ⟨.moreArguments d d', ?_, ?_⟩
        · rw [Derivation.meaning, hd, hd']
        · rw [hfront, List.map_cons, hback, Derivation.tokens, List.append_assoc]
          rfl
    · injection h with h
      subst h
      exact ⟨.argument d, congrArg (fun f => [f]) hd, hfront⟩

/-- **What the parser reads is a text of the grammar.** -/
theorem soundBelow (α : Type) (stop n : Nat) : SoundBelow α stop n := by
  -- each function is sound on `n` tokens if all functions are on fewer
  induction n with
  | zero => constructor <;> exact fun hts => absurd hts (Nat.not_lt_zero _)
  | succ n ih =>
      exact ⟨fun hts h => parseSum_derives ih (Nat.le_of_lt_succ hts) h,
        fun hts h => parseSummands_derives ih (Nat.le_of_lt_succ hts) h,
        fun hts h => parseProduct_derives ih (Nat.le_of_lt_succ hts) h,
        fun hts h => parseFactors_derives ih (Nat.le_of_lt_succ hts) h,
        fun hts h => parseUnary_derives ih (Nat.le_of_lt_succ hts) h,
        fun hts h => parseArguments_derives ih (Nat.le_of_lt_succ hts) h⟩

/-! ## The parser and the grammar -/

/-- A row of tokens with a derivation as a sum is parsed. -/
theorem parseTokens_of_tokens (stop : Nat) {tokens : List (Placed α)} (d : Derivation α .sum)
    (h : tokens.map Prod.fst = d.tokens) : parseTokens stop tokens = .ok d.meaning := by
  have hreads : Reads stop .sum (tokens ++ []) d.meaning [] := d.reads h (Rule.stops_nil _)
  rw [List.append_nil] at hreads
  obtain ⟨hrest, hread⟩ := hreads
  have hne : tokens.isEmpty = false := by
    cases tokens with
    | nil => exact absurd hrest (Nat.not_lt_zero _)
    | cons => rfl
  rw [parseTokens, hne, hread]
  rfl

/-- What is parsed is a sum. -/
theorem exists_of_parseTokens {tokens : List (Placed α)} {f : Formula α}
    (h : parseTokens stop tokens = .ok f) :
    ∃ d : Derivation α .sum, d.tokens = tokens.map Prod.fst ∧ d.meaning = f := by
  rw [parseTokens] at h
  split at h
  · injection h
  · split at h
    · injection h
    · rename_i whole hwhole
      split at h
      · rename_i hempty
        injection h with h
        obtain ⟨d, hd, htokens⟩ := (soundBelow α stop _).sum (Nat.lt_succ_self _) hwhole
        rw [List.isEmpty_iff.mp hempty, List.map_nil, List.append_nil] at htokens
        exact ⟨d, htokens.symm, hd.trans h⟩
      · injection h

/-- **The parser accepts exactly the rows of tokens that the grammar derives**, each with the
meaning of its derivation. A row has one derivation, and every row without one is refused. -/
theorem parseTokens_iff_derivation (stop : Nat) (tokens : List (Placed α)) :
    (∀ f, parseTokens stop tokens = .ok f ↔
      ∃ d : Derivation α .sum, d.tokens = tokens.map Prod.fst ∧ d.meaning = f) ∧
    Function.Injective (Derivation.tokens : Derivation α .sum → List (Token α)) ∧
    ((∃ problem, parseTokens stop tokens = .error problem) ↔
      ¬∃ d : Derivation α .sum, d.tokens = tokens.map Prod.fst) := by
  have haccepts : ∀ f, parseTokens stop tokens = .ok f ↔
      ∃ d : Derivation α .sum, d.tokens = tokens.map Prod.fst ∧ d.meaning = f := by
    refine fun f => ⟨exists_of_parseTokens, ?_⟩
    rintro ⟨d, htokens, rfl⟩
    exact parseTokens_of_tokens stop d htokens.symm
  refine ⟨haccepts, fun d d' h => ?_, ?_⟩
  · exact (d.eq_of_tokens (congrArg (· ++ []) h) (Rule.stops_nil _) (Rule.stops_nil _)).1
  · constructor
    · rintro ⟨problem, hproblem⟩ ⟨d, hd⟩
      rw [(haccepts d.meaning).mpr ⟨d, hd, rfl⟩] at hproblem
      injection hproblem
    · intro hnone
      cases hparse : parseTokens stop tokens with
      | error problem => exact ⟨problem, rfl⟩
      | ok f =>
          obtain ⟨d, hd, _⟩ := (haccepts f).mp hparse
          exact absurd ⟨d, hd⟩ hnone

/-- Signs group to the left, and a power takes the sign of its exponent but not the one before its
base. -/
example (a b c : String) : (parseTokens 0 ([.name a, .mark .minus, .name b, .mark .minus,
      .mark .minus, .name c, .mark .caret, .mark .minus, .name a].map (·, 0)) :
      Except Located (Formula Nat)) =
    .ok (.binary .sub (.binary .sub (.name a) (.name b))
      (.neg (.binary .pow (.name c) (.neg (.name a))))) := by
  cbv

end Grammar

end ExplicitOde
