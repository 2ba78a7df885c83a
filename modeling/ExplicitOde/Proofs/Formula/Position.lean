import ExplicitOde.Proofs.Formula.Parse
import ExplicitOde.Proofs.Formula.Scan
import ExplicitOde.Scalar.Double

/-!
# Where a formula is refused

**A row of tokens is refused at the first token with which no formula goes on**, or at the end of
the text if every token could be followed: `parseFormula_position`.

The parser never looks further than one token ahead. So whatever it does on a row of tokens is
decided by a front of the row and the first token after it, and that is what is carried through the
rules: the front is a text of the rule that the parser takes before any row that goes on with the
same token (`Takes`), or it can be completed to a text of the rule and the parser refuses every row
that goes on with the same token (`Stuck`). `decided` says that there is nothing else.

A row that the grammar derives is taken, so no derived row goes on with a token at which the parser
is stuck.
-/

namespace ExplicitOde

namespace Grammar

variable {α : Type} {stop : Nat} {r : Rule} {ts mid read rest rest' : List (Placed α)} {pos : Nat}

/-! ## Refusals of the rules -/

/-- The function of the parser for a rule refuses a row of tokens at an offset. -/
def RefusesAt (stop : Nat) : (r : Rule) → List (Placed α) → Nat → Prop
  | .sum, ts, pos => ∃ problem, parseSum stop ts = .error (problem, pos)
  | .summands, ts, pos => ∀ lhs, ∃ problem, parseSummands stop lhs ts = .error (problem, pos)
  | .product, ts, pos => ∃ problem, parseProduct stop ts = .error (problem, pos)
  | .factors, ts, pos => ∀ lhs, ∃ problem, parseFactors stop lhs ts = .error (problem, pos)
  | .unary, ts, pos => ∃ problem, parseUnary stop ts = .error (problem, pos)
  | .power, ts, pos => ∃ problem, parsePower stop ts = .error (problem, pos)
  | .primary, ts, pos => ∃ problem, parsePrimary stop ts = .error (problem, pos)
  | .arguments, ts, pos => ∃ problem, parseArguments stop ts = .error (problem, pos)

namespace RefusesAt

theorem firstProduct (h : RefusesAt stop .product ts pos) : RefusesAt stop .sum ts pos := by
  obtain ⟨problem, h⟩ := h
  exact ⟨problem, by rw [parseSum, h]⟩

theorem summands {f : Formula α} (hf : Reads stop .product ts f mid)
    (h : RefusesAt stop .summands mid pos) : RefusesAt stop .sum ts pos := by
  obtain ⟨_, hf⟩ := hf
  obtain ⟨problem, h⟩ := h f
  refine ⟨problem, ?_⟩
  rw [parseSum, hf]
  dsimp only
  rw [h]

theorem nextProduct {sign : SumSign} {offset : Nat} (h : RefusesAt stop .product ts pos) :
    RefusesAt stop .summands ((.mark sign.mark, offset) :: ts) pos := by
  intro lhs
  obtain ⟨problem, h⟩ := h
  refine ⟨problem, ?_⟩
  rw [parseSummands, sumOp?_mark]
  dsimp only
  rw [h]

theorem moreSummands {sign : SumSign} {offset : Nat} {f : Formula α}
    (hf : Reads stop .product ts f mid) (h : RefusesAt stop .summands mid pos) :
    RefusesAt stop .summands ((.mark sign.mark, offset) :: ts) pos := by
  intro lhs
  obtain ⟨_, hf⟩ := hf
  obtain ⟨problem, h⟩ := h (.binary sign.op lhs f)
  refine ⟨problem, ?_⟩
  rw [parseSummands, sumOp?_mark]
  dsimp only
  rw [hf]
  dsimp only
  rw [h]

theorem firstUnary (h : RefusesAt stop .unary ts pos) : RefusesAt stop .product ts pos := by
  obtain ⟨problem, h⟩ := h
  exact ⟨problem, by rw [parseProduct, h]⟩

theorem factors {f : Formula α} (hf : Reads stop .unary ts f mid)
    (h : RefusesAt stop .factors mid pos) : RefusesAt stop .product ts pos := by
  obtain ⟨_, hf⟩ := hf
  obtain ⟨problem, h⟩ := h f
  refine ⟨problem, ?_⟩
  rw [parseProduct, hf]
  dsimp only
  rw [h]

theorem nextUnary {sign : ProductSign} {offset : Nat} (h : RefusesAt stop .unary ts pos) :
    RefusesAt stop .factors ((.mark sign.mark, offset) :: ts) pos := by
  intro lhs
  obtain ⟨problem, h⟩ := h
  refine ⟨problem, ?_⟩
  rw [parseFactors, productOp?_mark]
  dsimp only
  rw [h]

theorem moreFactors {sign : ProductSign} {offset : Nat} {f : Formula α}
    (hf : Reads stop .unary ts f mid) (h : RefusesAt stop .factors mid pos) :
    RefusesAt stop .factors ((.mark sign.mark, offset) :: ts) pos := by
  intro lhs
  obtain ⟨_, hf⟩ := hf
  obtain ⟨problem, h⟩ := h (.binary sign.op lhs f)
  refine ⟨problem, ?_⟩
  rw [parseFactors, productOp?_mark]
  dsimp only
  rw [hf]
  dsimp only
  rw [h]

theorem negative {offset : Nat} (h : RefusesAt stop .unary ts pos) :
    RefusesAt stop .unary ((.mark .minus, offset) :: ts) pos := by
  obtain ⟨problem, h⟩ := h
  exact ⟨problem, by rw [parseUnary, h]⟩

theorem positive {offset : Nat} (h : RefusesAt stop .unary ts pos) :
    RefusesAt stop .unary ((.mark .plus, offset) :: ts) pos := by
  obtain ⟨problem, h⟩ := h
  exact ⟨problem, by rw [parseUnary, h]⟩

theorem unsigned (h : RefusesAt stop .power ts pos)
    (hfront : ∀ m ∈ [Mark.minus, .plus], (ts.map Prod.fst).head? ≠ some (.mark m)) :
    RefusesAt stop .unary ts pos := by
  obtain ⟨problem, h⟩ := h
  refine ⟨problem, ?_⟩
  rw [parseUnary.eq_def]
  split
  · exact absurd rfl (hfront _ (by decide))
  · exact absurd rfl (hfront _ (by decide))
  · exact h

theorem base (h : RefusesAt stop .primary ts pos) : RefusesAt stop .power ts pos := by
  obtain ⟨problem, h⟩ := h
  exact ⟨problem, by rw [parsePower, h]⟩

theorem exponent {offset : Nat} {f : Formula α}
    (hf : Reads stop .primary ts f ((.mark .caret, offset) :: mid))
    (h : RefusesAt stop .unary mid pos) : RefusesAt stop .power ts pos := by
  obtain ⟨_, hf⟩ := hf
  obtain ⟨problem, h⟩ := h
  refine ⟨problem, ?_⟩
  rw [parsePower, hf]
  dsimp only
  rw [h]

theorem nothing : RefusesAt stop .primary ([] : List (Placed α)) stop :=
  ⟨_, by rw [parsePrimary]⟩

theorem mark {m : Mark} (hm : m ≠ .leftParen) (offset : Nat) :
    RefusesAt stop .primary ((.mark m, offset) :: ts) offset := by
  refine ⟨.unexpectedMark m, ?_⟩
  rw [parsePrimary]
  exact hm

theorem callArguments {f : String} {i j : Nat} (h : RefusesAt stop .arguments ts pos)
    (hfront : (ts.map Prod.fst).head? ≠ some (.mark .rightParen)) :
    RefusesAt stop .primary ((.name f, i) :: (.mark .leftParen, j) :: ts) pos := by
  obtain ⟨problem, h⟩ := h
  refine ⟨problem, ?_⟩
  rw [parsePrimary, h]
  rintro _ _ rfl
  exact hfront rfl

theorem callUnclosed {f : String} {i j : Nat} {args : List (Formula α)}
    (hargs : Reads stop .arguments ts args rest)
    (hfront : (ts.map Prod.fst).head? ≠ some (.mark .rightParen))
    (hrest : (rest.map Prod.fst).head? ≠ some (.mark .rightParen)) :
    RefusesAt stop .primary ((.name f, i) :: (.mark .leftParen, j) :: ts)
      (positionOf stop rest) := by
  obtain ⟨_, hargs⟩ := hargs
  refine ⟨.noClosingAfterArguments, ?_⟩
  rw [parsePrimary, hargs]
  · dsimp only
    split
    · exact absurd rfl hrest
    · rfl
  · rintro _ _ rfl
    exact hfront rfl

theorem group {i : Nat} (h : RefusesAt stop .sum ts pos) :
    RefusesAt stop .primary ((.mark .leftParen, i) :: ts) pos := by
  obtain ⟨problem, h⟩ := h
  exact ⟨problem, by rw [parsePrimary, h]⟩

theorem groupUnclosed {i : Nat} {f : Formula α} (hf : Reads stop .sum ts f rest)
    (hrest : (rest.map Prod.fst).head? ≠ some (.mark .rightParen)) :
    RefusesAt stop .primary ((.mark .leftParen, i) :: ts) (positionOf stop rest) := by
  obtain ⟨_, hf⟩ := hf
  refine ⟨.noClosing, ?_⟩
  rw [parsePrimary, hf]
  dsimp only
  split
  · exact absurd rfl hrest
  · rfl

theorem firstArgument (h : RefusesAt stop .sum ts pos) : RefusesAt stop .arguments ts pos := by
  obtain ⟨problem, h⟩ := h
  exact ⟨problem, by rw [parseArguments, h]⟩

theorem moreArguments {offset : Nat} {f : Formula α}
    (hf : Reads stop .sum ts f ((.mark .comma, offset) :: mid))
    (h : RefusesAt stop .arguments mid pos) : RefusesAt stop .arguments ts pos := by
  obtain ⟨_, hf⟩ := hf
  obtain ⟨problem, h⟩ := h
  refine ⟨problem, ?_⟩
  rw [parseArguments, hf]
  dsimp only
  rw [h]

end RefusesAt

/-! ## One token ahead -/

/-- The tokens `read` are those of a derivation, and the parser takes them for it before every row
that goes on as `rest` does. -/
structure Takes (stop : Nat) (d : Derivation α r) (read rest : List (Placed α)) : Prop where
  tokens : read.map Prod.fst = d.tokens
  reads : ∀ ⦃rest' : List (Placed α)⦄, rest'.head? = rest.head? →
    Reads stop r (read ++ rest') d.meaning rest'

/-- The tokens `read` can be completed to a text of the rule, but the parser refuses every row in
which they go on as `rest` does. -/
structure Stuck (stop : Nat) (r : Rule) (read rest : List (Placed α)) : Prop where
  completable : ∃ (d : Derivation α r) (more : List (Token α)),
    d.tokens = read.map Prod.fst ++ more
  refuses : ∀ ⦃rest' : List (Placed α)⦄, rest'.head? = rest.head? →
    RefusesAt stop r (read ++ rest') (positionOf stop rest')

/-- What the parser does on a row of tokens is decided by a front of the row and the next token. -/
inductive Decided (stop : Nat) (r : Rule) : List (Placed α) → Prop where
  | takes {d : Derivation α r} (read : List (Placed α)) {rest : List (Placed α)}
      (h : Takes stop d read rest) : Decided stop r (read ++ rest)
  | stuck (read : List (Placed α)) {rest : List (Placed α)} (h : Stuck stop r read rest) :
      Decided stop r (read ++ rest)

/-- A row goes on as another does behind tokens that both begin with. -/
theorem head?_append_congr (read : List (Placed α)) (h : rest'.head? = rest.head?) :
    (read ++ rest').head? = (read ++ rest).head? := by
  rw [List.head?_append, List.head?_append, h]

/-- Rows that go on in the same way go on with the same token. -/
theorem head?_map_congr (h : rest'.head? = rest.head?) :
    (rest'.map Prod.fst).head? = (rest.map Prod.fst).head? := by
  rw [List.head?_map, List.head?_map, h]

theorem exists_cons_of_head? {t : Placed α} (h : rest'.head? = (t :: rest).head?) :
    ∃ tail, rest' = t :: tail :=
  ⟨rest'.tail, (List.cons_head?_tail h).symm⟩

/-- A row that begins with a token, whatever its offset. -/
theorem exists_cons_of_head?_map {t : Token α} (h : (ts.map Prod.fst).head? = some t) :
    ∃ offset tail, ts = (t, offset) :: tail := by
  cases ts with
  | nil => exact nomatch h
  | cons t' tail => exact ⟨t'.2, tail, by rw [← Option.some.inj h]⟩

theorem eq_nil_of_head? (h : rest'.head? = ([] : List (Placed α)).head?) : rest' = [] :=
  List.head?_eq_none_iff.mp h

/-- What follows a text is shorter than the row, unless the text is a row of further summands or
factors. -/
theorem Takes.length_lt {d : Derivation α r} (h : Takes stop d read rest)
    (hr : r ∉ [.summands, .factors]) : rest.length < (read ++ rest).length := by
  have hreads : Reads stop r (read ++ rest) d.meaning rest := h.reads rfl
  cases r with
  | summands | factors => exact absurd (by decide) hr
  | sum | product | unary | power | primary | arguments => exact hreads.1

namespace Decided

/-! Four ways in which a text is made of others. -/

section

variable {r₁ r₂ : Rule}

/-- A text behind some tokens. -/
theorem behind (h : Decided stop r₁ ts) (front : List (Placed α))
    (make : Derivation α r₁ → Derivation α r)
    (htokens : ∀ d, (make d).tokens = front.map Prod.fst ++ d.tokens)
    (hreads : ∀ {ts' rest : List (Placed α)} {d : Derivation α r₁}, ts'.head? = ts.head? →
      Reads stop r₁ ts' d.meaning rest → Reads stop r (front ++ ts') (make d).meaning rest)
    (hrefuses : ∀ {ts' : List (Placed α)} {pos : Nat}, ts'.head? = ts.head? →
      RefusesAt stop r₁ ts' pos → RefusesAt stop r (front ++ ts') pos) :
    Decided stop r (front ++ ts) := by
  cases h with
  | @takes d read rest h =>
      rw [← List.append_assoc]
      refine .takes _ (d := make d) ⟨by simp [htokens, h.tokens], fun rest' hrest' => ?_⟩
      rw [List.append_assoc]
      exact hreads (head?_append_congr read hrest') (h.reads hrest')
  | @stuck read rest h =>
      obtain ⟨d, more, hmore⟩ := h.completable
      rw [← List.append_assoc]
      refine .stuck _ ⟨⟨make d, more, by simp [htokens, hmore]⟩, fun rest' hrest' => ?_⟩
      rw [List.append_assoc]
      exact hrefuses (head?_append_congr read hrest') (h.refuses hrest')

/-- Behind some tokens, a text and then one that may be empty. -/
theorem inTwo (hfirst : Decided stop r₁ ts) (front : List (Placed α))
    (make : Derivation α r₁ → Derivation α r₂ → Derivation α r) (none : Derivation α r₂)
    (hsecond : ∀ mid : List (Placed α), mid.length < ts.length → Decided stop r₂ mid)
    (hr₁ : r₁ ∉ [.summands, .factors]) (hnone : none.tokens = [])
    (htokens : ∀ d d', (make d d').tokens = front.map Prod.fst ++ (d.tokens ++ d'.tokens))
    (hreads : ∀ {ts mid rest : List (Placed α)} {d : Derivation α r₁} {d' : Derivation α r₂},
      Reads stop r₁ ts d.meaning mid → Reads stop r₂ mid d'.meaning rest →
      Reads stop r (front ++ ts) (make d d').meaning rest)
    (hrefusesFirst : ∀ {ts : List (Placed α)} {pos : Nat}, RefusesAt stop r₁ ts pos →
      RefusesAt stop r (front ++ ts) pos)
    (hrefusesSecond : ∀ {ts mid : List (Placed α)} {d : Derivation α r₁} {pos : Nat},
      Reads stop r₁ ts d.meaning mid → RefusesAt stop r₂ mid pos →
      RefusesAt stop r (front ++ ts) pos) :
    Decided stop r (front ++ ts) := by
  cases hfirst with
  | @takes d read mid h =>
      cases hsecond mid (h.length_lt hr₁) with
      | @takes d' read' rest h' =>
          rw [← List.append_assoc, ← List.append_assoc]
          refine .takes _ (d := make d d') ⟨by simp [htokens, h.tokens, h'.tokens],
            fun rest' hrest' => ?_⟩
          rw [List.append_assoc, List.append_assoc]
          exact hreads (h.reads (head?_append_congr read' hrest')) (h'.reads hrest')
      | @stuck read' rest h' =>
          obtain ⟨d', more, hmore⟩ := h'.completable
          rw [← List.append_assoc, ← List.append_assoc]
          refine .stuck _ ⟨⟨make d d', more, by simp [htokens, h.tokens, hmore]⟩,
            fun rest' hrest' => ?_⟩
          rw [List.append_assoc, List.append_assoc]
          exact hrefusesSecond (h.reads (head?_append_congr read' hrest')) (h'.refuses hrest')
  | @stuck read rest h =>
      obtain ⟨d, more, hmore⟩ := h.completable
      rw [← List.append_assoc]
      refine .stuck _ ⟨⟨make d none, more, by simp [htokens, hmore, hnone]⟩, fun rest' hrest' => ?_⟩
      rw [List.append_assoc]
      exact hrefusesFirst (h.refuses hrest')

/-- A text, and another behind a mark if that mark is next. -/
theorem ifNext (hfirst : Decided stop r₁ ts) (m : Mark) (one : Derivation α r₁ → Derivation α r)
    (two : Derivation α r₁ → Derivation α r₂ → Derivation α r)
    (hsecond : ∀ mid : List (Placed α), mid.length < ts.length → Decided stop r₂ mid)
    (hr₁ : r₁ ∉ [.summands, .factors]) (hone : ∀ d, (one d).tokens = d.tokens)
    (htwo : ∀ d d', (two d d').tokens = d.tokens ++ .mark m :: d'.tokens)
    (hreadsOne : ∀ {ts rest : List (Placed α)} {d : Derivation α r₁},
      Reads stop r₁ ts d.meaning rest → (rest.map Prod.fst).head? ≠ some (.mark m) →
      Reads stop r ts (one d).meaning rest)
    (hreadsTwo : ∀ {ts mid rest : List (Placed α)} {offset : Nat} {d : Derivation α r₁}
      {d' : Derivation α r₂}, Reads stop r₁ ts d.meaning ((.mark m, offset) :: mid) →
      Reads stop r₂ mid d'.meaning rest → Reads stop r ts (two d d').meaning rest)
    (hrefusesFirst : ∀ {ts : List (Placed α)} {pos : Nat}, RefusesAt stop r₁ ts pos →
      RefusesAt stop r ts pos)
    (hrefusesSecond : ∀ {ts mid : List (Placed α)} {offset : Nat} {d : Derivation α r₁} {pos : Nat},
      Reads stop r₁ ts d.meaning ((.mark m, offset) :: mid) → RefusesAt stop r₂ mid pos →
      RefusesAt stop r ts pos) :
    Decided stop r ts := by
  cases hfirst with
  | @stuck read rest h =>
      obtain ⟨d, more, hmore⟩ := h.completable
      exact .stuck _ ⟨⟨one d, more, by rw [hone, hmore]⟩,
        fun rest' hrest' => hrefusesFirst (h.refuses hrest')⟩
  | @takes d read mid h =>
      -- unless the mark is next, the first text is all
      by_cases hnext : (mid.map Prod.fst).head? = some (.mark m)
      swap
      · refine .takes _ (d := one d) ⟨h.tokens.trans (hone d).symm, fun rest' hrest' => ?_⟩
        exact hreadsOne (h.reads hrest') (head?_map_congr hrest' ▸ hnext)
      obtain ⟨offset, tail, rfl⟩ := exists_cons_of_head?_map hnext
      have hshorter := h.length_lt hr₁
      rw [List.length_cons] at hshorter
      cases hsecond tail (Nat.lt_of_succ_lt hshorter) with
      | @takes d' read' rest h' =>
          rw [← List.cons_append, ← List.append_assoc]
          refine .takes _ (d := two d d') ⟨by simp [htwo, h.tokens, h'.tokens],
            fun rest' hrest' => ?_⟩
          rw [List.append_assoc, List.cons_append]
          exact hreadsTwo (h.reads rfl) (h'.reads hrest')
      | @stuck read' rest h' =>
          obtain ⟨d', more, hmore⟩ := h'.completable
          rw [← List.cons_append, ← List.append_assoc]
          refine .stuck _ ⟨⟨two d d', more, by simp [htwo, h.tokens, hmore]⟩,
            fun rest' hrest' => ?_⟩
          rw [List.append_assoc, List.cons_append]
          exact hrefusesSecond (h.reads rfl) (h'.refuses hrest')

/-- A text in parentheses, the opening one at the end of `front`. -/
theorem closed (hinner : Decided stop r₁ ts) (front : List (Placed α))
    (make : Derivation α r₁ → Derivation α .primary)
    (htokens : ∀ d, (make d).tokens = front.map Prod.fst ++ (d.tokens ++ [.mark .rightParen]))
    (hreads : ∀ {ts' rest : List (Placed α)} {k : Nat} {d : Derivation α r₁},
      ts'.head? = ts.head? → Reads stop r₁ ts' d.meaning ((.mark .rightParen, k) :: rest) →
      Reads stop .primary (front ++ ts') (make d).meaning rest)
    (hunclosed : ∀ {ts' rest : List (Placed α)} {d : Derivation α r₁}, ts'.head? = ts.head? →
      Reads stop r₁ ts' d.meaning rest → (rest.map Prod.fst).head? ≠ some (.mark .rightParen) →
      RefusesAt stop .primary (front ++ ts') (positionOf stop rest))
    (hrefuses : ∀ {ts' : List (Placed α)} {pos : Nat}, ts'.head? = ts.head? →
      RefusesAt stop r₁ ts' pos → RefusesAt stop .primary (front ++ ts') pos) :
    Decided stop .primary (front ++ ts) := by
  cases hinner with
  | @stuck read rest h =>
      obtain ⟨d, more, hmore⟩ := h.completable
      rw [← List.append_assoc]
      refine .stuck _ ⟨⟨make d, more ++ [.mark .rightParen], by simp [htokens, hmore]⟩,
        fun rest' hrest' => ?_⟩
      rw [List.append_assoc]
      exact hrefuses (head?_append_congr read hrest') (h.refuses hrest')
  | @takes d read mid h =>
      -- behind the inner text, only its closing parenthesis is taken
      by_cases hnext : (mid.map Prod.fst).head? = some (.mark .rightParen)
      · obtain ⟨k, rest, rfl⟩ := exists_cons_of_head?_map hnext
        rw [List.append_cons, ← List.append_assoc]
        refine .takes _ (d := make d) ⟨by simp [htokens, h.tokens], fun rest' _ => ?_⟩
        rw [List.append_assoc, List.append_assoc]
        exact hreads (head?_append_congr read rfl) (h.reads rfl)
      · rw [← List.append_assoc]
        refine .stuck _ ⟨⟨make d, [.mark .rightParen], by simp [htokens, h.tokens]⟩,
          fun rest' hrest' => ?_⟩
        rw [List.append_assoc]
        exact hunclosed (head?_append_congr read hrest') (h.reads hrest')
          (head?_map_congr hrest' ▸ hnext)

end

/-! Primaries by their first token. -/

theorem nothing : Decided stop .primary ([] : List (Placed α)) := by
  refine .stuck [] ⟨⟨.name "x", [.name "x"], rfl⟩, fun rest' hrest' => ?_⟩
  obtain rfl := eq_nil_of_head? hrest'
  exact .nothing

theorem mark {m : Mark} (hm : m ≠ .leftParen) (offset : Nat) :
    Decided stop .primary ((.mark m, offset) :: ts) := by
  refine .stuck [] ⟨⟨.name "x", [.name "x"], rfl⟩, fun rest' hrest' => ?_⟩
  obtain ⟨tail, rfl⟩ := exists_cons_of_head? hrest'
  exact .mark hm offset

theorem number (v : α) (offset : Nat) : Decided stop .primary ((.number v, offset) :: ts) :=
  .takes [(.number v, offset)] (d := .number v) ⟨rfl, fun _ _ => .number v offset⟩

theorem name (s : String) (offset : Nat) (h : (ts.map Prod.fst).head? ≠ some (.mark .leftParen)) :
    Decided stop .primary ((.name s, offset) :: ts) := by
  refine .takes [(.name s, offset)] (d := .name s) ⟨rfl, fun rest' hrest' => ?_⟩
  exact .name s offset (List.forall_mem_singleton.mpr (head?_map_congr hrest' ▸ h))

theorem callOfNone (f : String) (i j k : Nat) :
    Decided stop .primary
      ((.name f, i) :: (.mark .leftParen, j) :: (.mark .rightParen, k) :: ts) :=
  .takes [(.name f, i), (.mark .leftParen, j), (.mark .rightParen, k)] (d := .callOfNone f)
    ⟨rfl, fun _ _ => .callOfNone f i j k⟩

theorem call (f : String) (i j : Nat) (hargs : Decided stop .arguments ts)
    (h : (ts.map Prod.fst).head? ≠ some (.mark .rightParen)) :
    Decided stop .primary ((.name f, i) :: (.mark .leftParen, j) :: ts) :=
  hargs.closed [(.name f, i), (.mark .leftParen, j)] (.call f) (fun _ => rfl)
    (fun hhead hreads => .call hreads (head?_map_congr hhead ▸ h))
    (fun hhead hreads => .callUnclosed hreads (head?_map_congr hhead ▸ h))
    (fun hhead hrefuses => .callArguments hrefuses (head?_map_congr hhead ▸ h))

theorem group (i : Nat) (hinner : Decided stop .sum ts) :
    Decided stop .primary ((.mark .leftParen, i) :: ts) :=
  hinner.closed [(.mark .leftParen, i)] .group (fun _ => rfl)
    (fun _ hreads => .group hreads) (fun _ hreads => .groupUnclosed hreads)
    (fun _ hrefuses => .group hrefuses)

/-! The rules, if shorter rows are decided. -/

theorem primary (shorter : ∀ (r : Rule) (mid : List (Placed α)), mid.length < ts.length →
    Decided stop r mid) : Decided stop .primary ts := by
  cases ts with
  | nil => exact .nothing
  | cons t ts =>
      obtain ⟨t, i⟩ := t
      rw [List.length_cons] at shorter
      cases t with
      | number v => exact .number v i
      | mark m =>
          by_cases hm : m = .leftParen
          · subst hm
            exact .group i (shorter .sum ts (Nat.lt_succ_self _))
          · exact .mark hm i
      | name f =>
          by_cases hopen : (ts.map Prod.fst).head? = some (.mark .leftParen)
          swap
          · exact .name f i hopen
          obtain ⟨j, tail, rfl⟩ := exists_cons_of_head?_map hopen
          by_cases hclose : (tail.map Prod.fst).head? = some (.mark .rightParen)
          · obtain ⟨k, rest, rfl⟩ := exists_cons_of_head?_map hclose
            exact .callOfNone f i j k
          · exact .call f i j (shorter .arguments tail (by rw [List.length_cons]; omega)) hclose

theorem power (hprimary : Decided stop .primary ts)
    (shorter : ∀ mid : List (Placed α), mid.length < ts.length → Decided stop .unary mid) :
    Decided stop .power ts :=
  hprimary.ifNext .caret .base .raised shorter (by decide)
    (fun _ => rfl) (fun _ _ => rfl) .base .raised .base .exponent

theorem unary (hpower : Decided stop .power ts)
    (shorter : ∀ mid : List (Placed α), mid.length < ts.length → Decided stop .unary mid) :
    Decided stop .unary ts := by
  by_cases hminus : (ts.map Prod.fst).head? = some (.mark .minus)
  · obtain ⟨i, tail, rfl⟩ := exists_cons_of_head?_map hminus
    exact (shorter tail (Nat.lt_succ_self _)).behind [(.mark .minus, i)]
      .negative (fun _ => rfl) (fun _ => .negative) (fun _ => .negative)
  by_cases hplus : (ts.map Prod.fst).head? = some (.mark .plus)
  · obtain ⟨i, tail, rfl⟩ := exists_cons_of_head?_map hplus
    exact (shorter tail (Nat.lt_succ_self _)).behind [(.mark .plus, i)]
      .positive (fun _ => rfl) (fun _ => .positive) (fun _ => .positive)
  have hunsigned : ∀ {ts' : List (Placed α)}, ts'.head? = ts.head? → ∀ m ∈ [Mark.minus, .plus],
      (ts'.map Prod.fst).head? ≠ some (.mark m) := by
    intro ts' hhead
    rw [head?_map_congr hhead]
    exact List.forall_mem_cons.mpr ⟨hminus, List.forall_mem_singleton.mpr hplus⟩
  exact hpower.behind [] .unsigned (fun _ => rfl)
    (fun hhead hreads => .unsigned hreads (hunsigned hhead))
    (fun hhead hrefuses => .unsigned hrefuses (hunsigned hhead))

theorem factors (shorter : ∀ (r : Rule) (mid : List (Placed α)), mid.length < ts.length →
    Decided stop r mid) : Decided stop .factors ts := by
  by_cases hsign : ∃ sign : ProductSign, (ts.map Prod.fst).head? = some (.mark sign.mark)
  · obtain ⟨sign, hsign⟩ := hsign
    obtain ⟨i, tail, rfl⟩ := exists_cons_of_head?_map hsign
    exact (shorter .unary tail (Nat.lt_succ_self _)).inTwo [(.mark sign.mark, i)]
      (.factor sign) .noFactor
      (fun mid hmid => shorter .factors mid (Nat.lt_succ_of_lt hmid)) (by decide) rfl
      (fun _ _ => rfl) .factor .nextUnary .moreFactors
  · refine .takes [] (d := .noFactor) ⟨rfl, fun rest' hrest' => .noFactor ?_⟩
    rw [List.nil_append, head?_map_congr hrest']
    exact List.forall_mem_cons.mpr ⟨fun h => hsign ⟨.times, h⟩,
      List.forall_mem_singleton.mpr fun h => hsign ⟨.divide, h⟩⟩

theorem product (hunary : Decided stop .unary ts)
    (shorter : ∀ mid : List (Placed α), mid.length < ts.length → Decided stop .factors mid) :
    Decided stop .product ts :=
  hunary.inTwo [] .product .noFactor shorter (by decide) rfl
    (fun _ _ => rfl) .product .firstUnary .factors

theorem summands (shorter : ∀ (r : Rule) (mid : List (Placed α)), mid.length < ts.length →
    Decided stop r mid) : Decided stop .summands ts := by
  by_cases hsign : ∃ sign : SumSign, (ts.map Prod.fst).head? = some (.mark sign.mark)
  · obtain ⟨sign, hsign⟩ := hsign
    obtain ⟨i, tail, rfl⟩ := exists_cons_of_head?_map hsign
    exact (shorter .product tail (Nat.lt_succ_self _)).inTwo [(.mark sign.mark, i)]
      (.summand sign) .noSummand
      (fun mid hmid => shorter .summands mid (Nat.lt_succ_of_lt hmid)) (by decide) rfl
      (fun _ _ => rfl) .summand .nextProduct .moreSummands
  · refine .takes [] (d := .noSummand) ⟨rfl, fun rest' hrest' => .noSummand ?_⟩
    rw [List.nil_append, head?_map_congr hrest']
    exact List.forall_mem_cons.mpr ⟨fun h => hsign ⟨.plus, h⟩,
      List.forall_mem_singleton.mpr fun h => hsign ⟨.minus, h⟩⟩

theorem sum (hproduct : Decided stop .product ts)
    (shorter : ∀ mid : List (Placed α), mid.length < ts.length → Decided stop .summands mid) :
    Decided stop .sum ts :=
  hproduct.inTwo [] .sum .noSummand shorter (by decide) rfl
    (fun _ _ => rfl) .sum .firstProduct .summands

theorem arguments (hsum : Decided stop .sum ts)
    (shorter : ∀ mid : List (Placed α), mid.length < ts.length → Decided stop .arguments mid) :
    Decided stop .arguments ts :=
  hsum.ifNext .comma .argument .moreArguments shorter (by decide)
    (fun _ => rfl) (fun _ _ => rfl) .argument .moreArguments .firstArgument .moreArguments

end Decided

/-- **What the parser does on a row of tokens is decided by a front of the row and the next
token.** -/
theorem decided (stop : Nat) (r : Rule) (ts : List (Placed α)) : Decided stop r ts := by
  induction hlength : ts.length using Nat.strongRecOn generalizing r ts with
  | ind n ih =>
      have shorter : ∀ (r : Rule) (mid : List (Placed α)), mid.length < ts.length →
          Decided stop r mid :=
        fun r mid hmid => ih mid.length (hlength ▸ hmid) r mid rfl
      have hprimary := Decided.primary shorter
      have hunary := (hprimary.power (shorter .unary)).unary (shorter .unary)
      have hsum := (hunary.product (shorter .factors)).sum (shorter .summands)
      cases r with
      | primary => exact hprimary
      | power => exact hprimary.power (shorter .unary)
      | unary => exact hunary
      | factors => exact .factors shorter
      | product => exact hunary.product (shorter .factors)
      | summands => exact .summands shorter
      | sum => exact hsum
      | arguments => exact hsum.arguments (shorter .arguments)

/-! ## Whole rows -/

/-- The tokens are the first ones of a formula. -/
def Extendable (ts : List (Token α)) : Prop :=
  ∃ (d : Derivation α .sum) (more : List (Token α)), d.tokens = ts ++ more

/-- What is refused as a sum is refused as a formula. -/
theorem parseTokens_of_refusesAt
    (h : RefusesAt stop .sum (read ++ rest) (positionOf stop rest)) :
    ∃ problem, parseTokens stop (read ++ rest) = .error (problem, positionOf stop rest) := by
  rw [parseTokens]
  by_cases hempty : read ++ rest = []
  · rw [hempty, (List.append_eq_nil_iff.mp hempty).2]
    exact ⟨.emptyFormula, rfl⟩
  · obtain ⟨problem, h⟩ := h
    rw [if_neg (by rwa [List.isEmpty_iff]), h]
    exact ⟨problem, rfl⟩

/-- A formula ends where its sum ends. -/
theorem parseTokens_of_reads {f : Formula α} (h : Reads stop .sum ts f rest) :
    parseTokens stop ts =
      if rest.isEmpty then .ok f else .error (.trailingInput, positionOf stop rest) := by
  obtain ⟨hshorter, h⟩ := h
  have hne : ts.isEmpty = false := by
    cases ts with
    | nil => exact absurd hshorter (Nat.not_lt_zero _)
    | cons => rfl
  rw [parseTokens, hne, if_neg Bool.false_ne_true, h]
  rfl

/-- **A row is refused behind tokens that can be completed, and every row that goes on as it does is
refused.** -/
theorem parseTokens_refused {problem : FormulaProblem}
    (h : parseTokens stop ts = .error (problem, pos)) :
    ∃ read rest, ts = read ++ rest ∧ pos = positionOf stop rest ∧
      Extendable (read.map Prod.fst) ∧
      ∀ rest' : List (Placed α), rest'.head? = rest.head? →
        ∃ e, parseTokens stop (read ++ rest') = .error e := by
  cases decided stop .sum ts with
  | @stuck read rest hstuck =>
      refine ⟨read, rest, rfl, ?_, hstuck.completable, fun rest' hrest' => ?_⟩
      · obtain ⟨problem', h'⟩ := parseTokens_of_refusesAt (hstuck.refuses rfl)
        exact (Prod.mk.inj (Except.error.inj (h.symm.trans h'))).2
      · obtain ⟨problem', h'⟩ := parseTokens_of_refusesAt (hstuck.refuses hrest')
        exact ⟨_, h'⟩
  | @takes d read rest htakes =>
      have hrow := parseTokens_of_reads (htakes.reads rfl)
      cases rest with
      | nil => exact nomatch h.symm.trans hrow
      | cons t rest =>
          refine ⟨read, t :: rest, rfl, ?_, ⟨d, [], by rw [htakes.tokens, List.append_nil]⟩,
            fun rest' hrest' => ?_⟩
          · exact (Prod.mk.inj (Except.error.inj (h.symm.trans hrow))).2
          · obtain ⟨tail, rfl⟩ := exists_cons_of_head? hrest'
            exact ⟨_, parseTokens_of_reads (htakes.reads hrest')⟩

/-- **A row is refused at the first token with which no formula goes on**, or at the end. -/
theorem parseTokens_position {problem : FormulaProblem}
    (h : parseTokens stop ts = .error (problem, pos)) :
    ∃ read rest, ts = read ++ rest ∧ pos = positionOf stop rest ∧
      Extendable (read.map Prod.fst) ∧
      (∀ t ∈ rest.head?, ¬Extendable ((read ++ [t]).map Prod.fst)) ∧
      (rest = [] → ¬∃ d : Derivation α .sum, d.tokens = ts.map Prod.fst) := by
  obtain ⟨read, rest, rfl, hpos, hread, hrefused⟩ := parseTokens_refused h
  refine ⟨read, rest, rfl, hpos, hread, ?_, ?_⟩
  · rintro t ht ⟨d, more, hmore⟩
    -- the row of the derivation goes on with the same token
    obtain ⟨e, he⟩ := hrefused (t :: more.map (·, 0)) ht.symm
    rw [parseTokens_of_tokens stop d (by simp [hmore, Function.comp_def])] at he
    exact nomatch he
  · rintro rfl ⟨d, hd⟩
    rw [parseTokens_of_tokens stop d hd.symm] at h
    exact nomatch h

/-- **A text is refused at the first token with which no formula goes on.** The tokens before it
are the first ones of a formula, and with it they are not. If all tokens are the first ones of a
formula, then they are not all of it, and the text is refused at its end. -/
theorem parseFormula_position [Scalar α] {text : String} {tokens : List (Placed α)}
    {e : FormulaError} (htokens : tokenize text = .ok tokens)
    (hparse : (parseFormula text : Except FormulaError (Formula α)) = .error e) :
    (∀ k (hk : k < tokens.length), tokens[k].2 = e.position →
      Extendable ((tokens.take k).map Prod.fst) ∧
      ¬Extendable ((tokens.take (k + 1)).map Prod.fst)) ∧
    ((∀ t ∈ tokens, t.2 ≠ e.position) →
      e.position = text.utf8ByteSize ∧ Extendable (tokens.map Prod.fst) ∧
      ¬∃ d : Derivation α .sum, d.tokens = tokens.map Prod.fst) := by
  have hoffsets := offsets_of_tokenize htokens
  rw [parseFormula, htokens] at hparse
  dsimp only at hparse
  split at hparse
  swap
  · exact nomatch hparse
  rename_i problem pos hrefused
  obtain rfl := Except.error.inj hparse
  obtain ⟨read, rest, rfl, rfl, hread, hnext, hall⟩ := parseTokens_position hrefused
  cases rest with
  | nil =>
      rw [List.append_nil] at *
      refine ⟨fun k hk hoffset => ?_, fun _ => ⟨rfl, hread, hall rfl⟩⟩
      have hbound := (hoffsets.bounds _ (List.mem_map_of_mem (List.getElem_mem hk))).2
      exact absurd hoffset (Nat.ne_of_lt hbound)
  | cons t tail =>
      refine ⟨fun k hk hoffset => ?_, fun hnone => absurd rfl (hnone t (by simp))⟩
      -- no two tokens begin at the same place
      have hat : k = read.length := by
        have hdistinct : ((read ++ t :: tail).map Prod.snd).Nodup :=
          hoffsets.increasing.imp Nat.ne_of_lt
        have hk' : k < ((read ++ t :: tail).map Prod.snd).length := by rwa [List.length_map]
        have hend : read.length < ((read ++ t :: tail).map Prod.snd).length := by simp
        refine hdistinct.getElem_inj_iff.mp (?_ : _[k] = _[read.length])
        rw [List.getElem_map, List.getElem_map, hoffset,
          List.getElem_append_right (Nat.le_refl read.length)]
        simp [positionOf]
      subst hat
      rw [List.take_left, List.take_length_add_append]
      exact ⟨hread, hnext t rfl⟩

/-- `(a b` is refused at its last name, and `(a` at its end. -/
theorem parseFormula_position_unclosed :
    (Extendable [(.mark .leftParen : Token Float), .name "a"] ∧
      ¬Extendable [(.mark .leftParen : Token Float), .name "a", .name "b"]) ∧
    ¬∃ d : Derivation Float .sum, d.tokens = [.mark .leftParen, .name "a"] := by
  have hname : tokenize "(a b" =
      .ok [((.mark .leftParen : Token Float), 0), (.name "a", 1), (.name "b", 3)] := by
    cbv
  have hend : tokenize "(a" = .ok [((.mark .leftParen : Token Float), 0), (.name "a", 1)] := by
    cbv
  have hnameRefused : (parseFormula "(a b" : Except FormulaError (Formula Float)) =
      .error ⟨"(a b", 3, .noClosing⟩ := by
    cbv
  have hendRefused : (parseFormula "(a" : Except FormulaError (Formula Float)) =
      .error ⟨"(a", 2, .noClosing⟩ := by
    cbv
  exact ⟨(parseFormula_position hname hnameRefused).1 2 (by decide) rfl,
    ((parseFormula_position hend hendRefused).2 (by decide)).2.2⟩

end Grammar

end ExplicitOde
