import ExplicitOde.Declaration.Validation
import ExplicitOde.Proofs.Formula.Parse
import ExplicitOde.Proofs.Formula.Renaming
import ExplicitOde.Proofs.Formula.Scan

/-!
# Words of a formula

Whether a symbol is used is told from the words of a text, which is never parsed for that. **The
words of a formula are its names**, those of functions included, and what stands behind the point
of a number: `mem_words_iff`. The second comes of how numbers can be spelled: `1.e5` is a number
without digits behind its point, and has the word `e5`.

Two things make the words of a text the words of its tokens. A word never goes over the end of a
token, because of two tokens next to each other one is a mark (`Derivation.separated`). And all
words of a number begin with a digit, but the one behind the point.
-/

namespace ExplicitOde

open Declaration (words)

variable {α : Type}

namespace Formula

/-- The names of the functions that a formula calls. -/
def calls : Formula α → List String
  | .number _ => []
  | .name _ => []
  | .neg f => f.calls
  | .binary _ f g => f.calls ++ g.calls
  | .call function args => function :: args.flatMap fun f => f.calls

/-- The name is one in a formula, or that of a function. -/
def Mentions (f : Formula α) (s : String) : Prop := s ∈ f.names ∨ s ∈ f.calls

section

variable {s t : String} {f g : Formula α}

@[simp] theorem mentions_number {v : α} : (Formula.number v).Mentions s ↔ False := by
  simp [Mentions, names, calls]

@[simp] theorem mentions_name : (Formula.name t : Formula α).Mentions s ↔ s = t := by
  simp [Mentions, names, calls]

@[simp] theorem mentions_neg : (Formula.neg f).Mentions s ↔ f.Mentions s := by
  simp [Mentions, names, calls]

@[simp] theorem mentions_binary {op : BinaryOp} :
    (Formula.binary op f g).Mentions s ↔ f.Mentions s ∨ g.Mentions s := by
  simp only [Mentions, names, calls, List.mem_append]
  tauto

@[simp] theorem mentions_call {args : List (Formula α)} :
    (Formula.call t args).Mentions s ↔ s = t ∨ ∃ f ∈ args, f.Mentions s := by
  simp only [Mentions, names, calls, List.mem_cons, List.mem_flatMap, and_or_left, exists_or]
  exact or_left_comm

end

end Formula

/-! ## Names among tokens -/

/-- The token is a mark. -/
def Token.isMark : Token α → Bool
  | .mark _ => true
  | .number _ | .name _ => false

/-- One of two tokens is a mark, so that they can stand next to each other. -/
def Apart (t t' : Token α) : Prop := t.isMark = true ∨ t'.isMark = true

section

variable {m : Mark} {ts us : List (Token α)}

theorem isChain_mark_cons : (.mark m :: ts).IsChain Apart ↔ ts.IsChain Apart :=
  List.isChain_cons.trans (and_iff_right fun _ _ => Or.inl rfl)

theorem isChain_name_mark_cons {f : String} :
    (.name f :: .mark m :: ts).IsChain Apart ↔ ts.IsChain Apart :=
  List.isChain_cons_cons.trans ((and_iff_right (Or.inr rfl)).trans isChain_mark_cons)

/-- Tokens on both sides of a mark are apart. -/
theorem isChain_append_mark_cons :
    (ts ++ .mark m :: us).IsChain Apart ↔ ts.IsChain Apart ∧ us.IsChain Apart := by
  rw [List.isChain_append, isChain_mark_cons, ← and_assoc]
  refine and_iff_left fun t _ t' ht' => ?_
  obtain rfl := Option.some.inj ht'
  exact Or.inr rfl

end

namespace Grammar

namespace Rule

/-- The names that are mentioned by what a text of the rule stands for are those among its tokens.
Further summands and factors keep the names on their left. -/
def MentionsTokens (s : String) : (r : Rule) → r.Meaning α → List (Token α) → Prop
  | .summands | .factors => fun (f : Formula α → Formula α) ts =>
      ∀ lhs, (f lhs).Mentions s ↔ lhs.Mentions s ∨ .name s ∈ ts
  | .arguments => fun (fs : List (Formula α)) ts => (∃ f ∈ fs, f.Mentions s) ↔ .name s ∈ ts
  | .sum | .product | .unary | .power | .primary => fun (f : Formula α) ts =>
      f.Mentions s ↔ .name s ∈ ts

end Rule

namespace Derivation

variable {r : Rule}

/-- **The names that a text mentions are those among its tokens.** -/
theorem mentionsTokens (s : String) (d : Derivation α r) :
    r.MentionsTokens s d.meaning d.tokens := by
  induction d with
  | sum first others ihf iho | product first others ihf iho =>
      refine (iho first.meaning).trans ?_
      rw [tokens, List.mem_append]
      exact or_congr_left ihf
  | noSummand | noFactor => exact fun lhs => (or_iff_left List.not_mem_nil).symm
  | summand sign next others ihn iho | factor sign next others ihn iho =>
      intro lhs
      have hextended : (Formula.binary sign.op lhs next.meaning).Mentions s ↔
          lhs.Mentions s ∨ .name s ∈ next.tokens :=
        Formula.mentions_binary.trans (or_congr_right ihn)
      exact (iho _).trans ((or_congr_left hextended).trans (by simp [or_assoc]))
  | negative inner ih => exact Formula.mentions_neg.trans (Iff.trans ih (by simp))
  | positive inner ih => exact Iff.trans ih (by simp)
  | unsigned inner ih | base inner ih => exact ih
  | raised inner exponent ihi ihe =>
      exact Formula.mentions_binary.trans ((or_congr ihi ihe).trans (by simp))
  | number v => exact Formula.mentions_number.trans (by simp)
  | name t => exact Formula.mentions_name.trans (by simp)
  | callOfNone f => exact Formula.mentions_call.trans (by simp)
  | call f args ih => exact Formula.mentions_call.trans ((or_congr_right ih).trans (by simp))
  | group inner ih => exact Iff.trans ih (by simp)
  | argument only ih =>
      have hone : (∃ f ∈ [(only.meaning : Formula α)], f.Mentions s) ↔
          Formula.Mentions only.meaning s := by
        simp
      exact hone.trans ih
  | moreArguments first others ihf iho =>
      exact (List.exists_mem_cons_iff _ _ _).trans ((or_congr ihf iho).trans (by simp))

/-- Further summands and factors begin with a mark. -/
theorem isMark_head? (d : Derivation α r) (hr : r ∈ [.summands, .factors]) :
    ∀ t ∈ d.tokens.head?, t.isMark = true := by
  cases d with
  | noSummand | noFactor => exact fun t ht => nomatch ht
  | summand | factor =>
      intro t ht
      obtain rfl := Option.some.inj ht
      rfl
  | _ => exact absurd hr (by decide)

/-- **Of two tokens next to each other one is a mark.** -/
theorem separated (d : Derivation α r) : d.tokens.IsChain Apart := by
  induction d with
  | sum first others ihf iho | product first others ihf iho =>
      rw [tokens, List.isChain_append]
      exact ⟨ihf, iho, fun _ _ t' ht' => Or.inr (others.isMark_head? (by decide) t' ht')⟩
  | noSummand | noFactor => exact .nil
  | number | name => exact .singleton _
  | summand sign next others ihn iho | factor sign next others ihn iho =>
      rw [tokens, isChain_mark_cons, List.isChain_append]
      exact ⟨ihn, iho, fun _ _ t' ht' => Or.inr (others.isMark_head? (by decide) t' ht')⟩
  | negative inner ih | positive inner ih => exact isChain_mark_cons.mpr ih
  | unsigned inner ih | base inner ih | argument inner ih => exact ih
  | raised first others ihf iho | moreArguments first others ihf iho =>
      exact isChain_append_mark_cons.mpr ⟨ihf, iho⟩
  | callOfNone f =>
      exact isChain_name_mark_cons.mpr (.singleton _)
  | call f args ih =>
      exact isChain_name_mark_cons.mpr (isChain_append_mark_cons.mpr ⟨ih, .nil⟩)
  | group inner ih =>
      exact isChain_mark_cons.mpr (isChain_append_mark_cons.mpr ⟨ih, .nil⟩)

end Derivation

end Grammar

/-! ## Words of a text -/

section

variable {c : Char} {cs ds tail w : List Char}

/-- Texts on both sides of an end of a word have their own words. -/
theorem words_append (h : ∀ c ∈ ds.head?, isNameRest c = false) (cs : List Char) :
    words (cs ++ ds) = words cs ++ words ds := by
  fun_induction words cs with
  | case1 => rfl
  | case2 c rest hc ih =>
      obtain ⟨htake, hdrop⟩ := C.takeWhile_append_end h rest
      rw [List.cons_append, words, if_pos hc, htake, hdrop, ih, List.cons_append]
  | case3 c rest hc ih => rw [List.cons_append, words, if_neg hc, ih]

/-- The first word of a text, if the text begins with one, and those after it. -/
theorem mem_words_iff_first :
    c :: tail ∈ words cs ↔
      cs.takeWhile isNameRest = c :: tail ∨ c :: tail ∈ words (cs.dropWhile isNameRest) := by
  cases cs with
  | nil => simp [words]
  | cons d rest =>
      by_cases hd : isNameRest d = true
      · rw [words, if_pos hd, List.mem_cons, List.takeWhile_cons_of_pos hd,
          List.dropWhile_cons_of_pos hd]
        exact or_congr_left eq_comm
      · rw [List.takeWhile_cons_of_neg hd, List.dropWhile_cons_of_neg hd]
        exact (or_iff_right (List.cons_ne_nil c tail).symm).symm

theorem subset_of_mem_words (h : w ∈ words cs) : w ⊆ cs := by
  fun_induction words cs with
  | case1 => exact absurd h List.not_mem_nil
  | case2 c rest hc ih =>
      rcases List.mem_cons.mp h with rfl | h
      · exact List.cons_subset_cons c (List.takeWhile_subset _)
      · exact fun d hd => List.mem_cons_of_mem c ((List.dropWhile_suffix _).subset (ih h hd))
  | case3 c rest hc ih => exact fun d hd => List.mem_cons_of_mem c (ih h hd)

/-- Where no name can begin there is no word that is a name. -/
theorem not_mem_words (hc : isNameStart c = true) (hcs : ∀ d ∈ cs, isNameStart d = false) :
    c :: tail ∉ words cs := by
  intro h
  have hstart := hcs c (subset_of_mem_words h List.mem_cons_self)
  rw [hc] at hstart
  exact Bool.noConfusion hstart

/-! ## Words of a number -/

theorem isNameRest_of_isDigit (h : c.isDigit = true) : isNameRest c = true := by
  rw [isNameRest, Char.isAlphanum, h, Bool.or_true, Bool.true_or]

theorem not_isNameStart_of_isDigit (h : c.isDigit = true) : isNameStart c = false := by
  by_contra hstart
  have hcode := toNat_of_isNameStart (Bool.not_eq_false _ ▸ hstart)
  have hdigit := toNat_of_isDigit h
  omega

theorem ne_point_of_isDigit (h : c.isDigit = true) : (c != '.') = true := by
  rw [bne_iff_ne]
  rintro rfl
  exact absurd h (by decide)

/-- An exponent is a letter, a sign or none, and digits. -/
theorem exponent_shape {k : Int} (h : Decimal.readExponent cs = some k) :
    cs = [] ∨ ∃ e sign digits, cs = e :: (sign ++ digits) ∧ e ∈ ['e', 'E'] ∧
      sign ∈ [[], ['+'], ['-']] ∧ ∀ d ∈ digits, d.isDigit = true := by
  cases Decimal.denotesExponent_of_read h with
  | none => exact Or.inl rfl
  | positive hletter hsign hdigits =>
      exact Or.inr ⟨_, _, _, rfl, hletter, List.mem_append_left [['-']] hsign, hdigits.2⟩
  | negative hletter hdigits =>
      exact Or.inr ⟨_, ['-'], _, rfl, hletter, by decide, hdigits.2⟩

/-- A number is digits and an exponent, or digits, a point, digits and an exponent. -/
theorem numeral_shape {d : Decimal} (h : Decimal.read cs = some d) :
    ∃ whole exponent k, (∀ d ∈ whole, d.isDigit = true) ∧
      Decimal.readExponent exponent = some k ∧
      (whole ≠ [] ∧ cs = whole ++ exponent ∨ ∃ fraction, (∀ d ∈ fraction, d.isDigit = true) ∧
        cs = whole ++ '.' :: (fraction ++ exponent)) := by
  cases Decimal.denotes_of_read h with
  | whole hwhole hexponent =>
      exact ⟨_, _, _, hwhole.2, hexponent.read, Or.inl ⟨hwhole.1, rfl⟩⟩
  | point hdigits hexponent =>
      obtain ⟨hwhole, hfraction⟩ := List.forall_mem_append.mp hdigits.2
      exact ⟨_, _, _, hwhole, hexponent.read, Or.inr ⟨_, hfraction, rfl⟩⟩

/-- What stands behind the point of a number, up to a sign. -/
def behindPoint (cs : List Char) : List Char :=
  ((cs.dropWhile (· != '.')).drop 1).takeWhile isNameRest

/-- Behind its letters and digits an exponent has nothing but a sign and digits. -/
theorem not_isNameStart_of_exponent {k : Int} (h : Decimal.readExponent cs = some k) :
    ∀ d ∈ cs.dropWhile isNameRest, isNameStart d = false := by
  obtain rfl | ⟨e, sign, digits, rfl, he, hsign, hdigits⟩ := exponent_shape h
  · exact List.forall_mem_nil _
  have hletters : ∀ e ∈ ['e', 'E'], isNameRest e = true := by simp [isNameRest]
  have hsigns : ∀ sign ∈ [[], ['+'], ['-']], ∀ d ∈ sign, isNameStart d = false := by
    simp [isNameStart]
  have hsigned : ∀ d ∈ sign ++ digits, isNameStart d = false :=
    List.forall_mem_append.mpr
      ⟨hsigns sign hsign, fun d hd => not_isNameStart_of_isDigit (hdigits d hd)⟩
  rw [List.dropWhile_cons_of_pos (hletters e he)]
  exact fun d hd => hsigned d ((List.dropWhile_suffix _).subset hd)

/-- An exponent has no point. -/
theorem ne_point_of_exponent {k : Int} (h : Decimal.readExponent cs = some k) :
    ∀ d ∈ cs, (d != '.') = true := by
  obtain rfl | ⟨e, sign, digits, rfl, he, hsign, hdigits⟩ := exponent_shape h
  · exact List.forall_mem_nil _
  have hletters : ∀ e ∈ ['e', 'E'], (e != '.') = true := by simp
  have hsigns : ∀ sign ∈ [[], ['+'], ['-']], ∀ d ∈ sign, (d != '.') = true := by simp
  exact List.forall_mem_cons.mpr ⟨hletters e he, List.forall_mem_append.mpr
    ⟨hsigns sign hsign, fun d hd => ne_point_of_isDigit (hdigits d hd)⟩⟩

/-- **A number has one word that is a name at most, the one behind its point.** -/
theorem mem_words_numeral {d : Decimal} (h : Decimal.read cs = some d)
    (hc : isNameStart c = true) : c :: tail ∈ words cs ↔ behindPoint cs = c :: tail := by
  obtain ⟨whole, exponent, k, hwhole, hexponent, hshape⟩ := numeral_shape h
  have hlater : c :: tail ∉ words (exponent.dropWhile isNameRest) :=
    not_mem_words hc (not_isNameStart_of_exponent hexponent)
  have hdrop : ∀ digits : List Char, (∀ d ∈ digits, d.isDigit = true) →
      (digits ++ exponent).dropWhile isNameRest = exponent.dropWhile isNameRest :=
    fun _ hdigits => List.dropWhile_append_of_pos fun d hd => isNameRest_of_isDigit (hdigits d hd)
  have hpoint : ∀ d ∈ whole, (d != '.') = true := fun d hd => ne_point_of_isDigit (hwhole d hd)
  rcases hshape with ⟨hne, rfl⟩ | ⟨fraction, hfraction, rfl⟩
  · -- the first word begins with a digit, and nothing stands behind a point
    have hfirst : (whole ++ exponent).takeWhile isNameRest ≠ c :: tail := by
      obtain ⟨e, whole, rfl⟩ := List.exists_cons_of_ne_nil hne
      have he := hwhole e List.mem_cons_self
      rw [List.cons_append, List.takeWhile_cons_of_pos (isNameRest_of_isDigit he)]
      intro heq
      rw [(List.cons.inj heq).1] at he
      exact absurd (not_isNameStart_of_isDigit he) (by rw [hc]; exact Bool.noConfusion)
    have hnone : behindPoint (whole ++ exponent) = [] := by
      have hall : (whole ++ exponent).dropWhile (· != '.') = [] := List.dropWhile_eq_nil_iff.mpr
        (List.forall_mem_append.mpr ⟨hpoint, ne_point_of_exponent hexponent⟩)
      rw [behindPoint, hall]
      rfl
    rw [mem_words_iff_first, hdrop whole hwhole, hnone]
    exact ⟨fun h => (h.elim hfirst hlater).elim, fun h => nomatch h⟩
  · have hbehind : behindPoint (whole ++ '.' :: (fraction ++ exponent)) =
        (fraction ++ exponent).takeWhile isNameRest := by
      rw [behindPoint, List.dropWhile_append_of_pos hpoint]
      rfl
    have hfront : c :: tail ∉ words whole :=
      not_mem_words hc fun d hd => not_isNameStart_of_isDigit (hwhole d hd)
    have hend : ∀ d ∈ ('.' :: (fraction ++ exponent)).head?, isNameRest d = false := by
      simp [isNameRest]
    rw [words_append hend, List.mem_append, or_iff_right hfront, words,
      if_neg (by decide), mem_words_iff_first, hdrop fraction hfraction, or_iff_left hlater,
      hbehind]

end

/-! ## Words of a formula -/

/-- The numbers of a text as they are spelled. They begin where a text is cut into tokens, and not
within names. -/
def numerals (cs : List Char) : List (List Char) :=
  match cs with
  | [] => []
  | c :: cs =>
    if h : isNumberStart c = true then
      have := numberRun_rest_lt cs h
      (numberRun false (c :: cs)).1 :: numerals (numberRun false (c :: cs)).2
    else if isNameStart c then
      have := (List.dropWhile_suffix isNameRest (l := cs)).length_le
      numerals (cs.dropWhile isNameRest)
    else numerals cs
termination_by cs.length
decreasing_by all_goals simp_all; try omega

section

variable [Scalar α] {c : Char} {cs tail : List Char} {offset : Nat} {placed : List (Placed α)}

theorem isNameRest_iff : isNameRest c = true ↔ isNameStart c = true ∨ c.isDigit = true := by
  simp only [isNameRest, isNameStart, Char.isAlphanum, Bool.or_eq_true]
  tauto

/-- What begins no token with letters or digits is in no word. -/
theorem not_isNameRest (hnumber : ¬isNumberStart c = true) (hname : ¬isNameStart c = true) :
    ¬isNameRest c = true := by
  rw [isNameRest_iff]
  rintro (hstart | hdigit)
  · exact hname hstart
  · exact hnumber (by rw [isNumberStart, hdigit, Bool.true_or])

theorem not_start_of_isBlank (h : isBlank c = true) :
    ¬isNumberStart c = true ∧ ¬isNameStart c = true := by
  constructor
  · intro hstart
    rw [isNumberStart, Bool.or_eq_true, beq_iff_eq] at hstart
    rcases hstart with hdigit | rfl
    · have hcode := toNat_of_isDigit hdigit
      exact absurd h (by rw [isBlank_of_lt (by omega) (by omega)]; exact Bool.false_ne_true)
    · exact absurd h (by decide)
  · intro hstart
    have hcode := toNat_of_isNameStart hstart
    exact absurd h (by rw [isBlank_of_lt (by omega) (by omega)]; exact Bool.false_ne_true)

/-- What goes on with a name or a number begins with a token that is no mark. -/
theorem not_isNameRest_of_scan (h : scan offset cs = .ok placed)
    (hmark : ∀ t ∈ (placed.map Prod.fst).head?, t.isMark = true) :
    ∀ c ∈ cs.head?, isNameRest c = false := by
  intro c hc
  rw [← Bool.not_eq_true]
  fun_induction scan (α := α) offset cs with
  | case1 => simp at hc
  | case2 offset d rest hblank =>
      obtain rfl := Option.some.inj hc
      exact not_isNameRest (not_start_of_isBlank hblank).1 (not_start_of_isBlank hblank).2
  | case5 | case7 =>
      obtain rfl := Except.ok.inj h
      exact absurd (hmark _ rfl) Bool.false_ne_true
  | case10 offset d rest hblank hstart hname =>
      obtain rfl := Option.some.inj hc
      exact not_isNameRest hstart hname
  | _ => injection h

/-- The words of a text that are names, told from its tokens and numbers. -/
theorem mem_words_of_scan (h : scan offset cs = .ok placed)
    (hapart : (placed.map Prod.fst).IsChain Apart) (hc : isNameStart c = true) :
    c :: tail ∈ words cs ↔ .name (String.ofList (c :: tail)) ∈ placed.map Prod.fst ∨
      ∃ n ∈ numerals cs, behindPoint n = c :: tail := by
  fun_induction scan (α := α) offset cs generalizing placed with
  | case1 =>
      obtain rfl := Except.ok.inj h
      simp [words, numerals]
  | case2 offset d cs hblank ih =>
      obtain ⟨hnumber, hname⟩ := not_start_of_isBlank hblank
      rw [words, if_neg (not_isNameRest hnumber hname), numerals, dif_neg hnumber, if_neg hname]
      exact ih h hapart
  | case5 offset d cs hblank hstart _ run v hread ts hts =>
      rename_i ih
      obtain rfl := Except.ok.inj h
      rw [List.map_cons, List.isChain_cons] at hapart
      -- the number ends a word, because a mark or nothing is next
      have hends : ∀ c ∈ run.2.head?, isNameRest c = false :=
        not_isNameRest_of_scan hts fun t ht =>
          (hapart.1 t ht).resolve_left Bool.false_ne_true
      have hwords : words (d :: cs) = words run.1 ++ words run.2 := by
        rw [← words_append hends, numberRun_append]
      have hlater : (.name (String.ofList (c :: tail)) : Token α) ∈
          .number (Scalar.ofDecimal v) :: ts.map Prod.fst ↔ _ :=
        List.mem_cons.trans (or_iff_right (by simp))
      rw [hwords, List.mem_append, mem_words_numeral hread hc, ih hts hapart.2, numerals,
        dif_pos hstart, List.exists_mem_cons_iff, List.map_cons, hlater]
      exact or_left_comm
  | case7 offset d cs hblank hstart hname _ run ts hts =>
      rename_i ih
      obtain rfl := Except.ok.inj h
      have hsame : c :: tail = d :: run.1 ↔
          (.name (String.ofList (c :: tail)) : Token α) = .name (String.ofList (d :: run.1)) := by
        rw [Token.name.injEq, String.ofList_inj]
      rw [words, if_pos (isNameRest_iff.mpr (Or.inl hname)), List.mem_cons, numerals,
        dif_neg hstart, if_pos hname, List.map_cons, List.mem_cons, or_assoc]
      exact or_congr hsame (ih hts hapart.tail)
  | case10 offset d cs hblank hstart hname m hm ts hts ih =>
      obtain rfl := Except.ok.inj h
      rw [words, if_neg (not_isNameRest hstart hname), numerals, dif_neg hstart, if_neg hname,
        ih hts hapart.tail]
      simp
  | _ => injection h

/-- A text that is a formula is cut into the tokens of a derivation. -/
theorem exists_of_parseFormula {text : String} {f : Formula α} (h : parseFormula text = .ok f) :
    ∃ placed, scan 0 text.toList = .ok placed ∧
      ∃ d : Grammar.Derivation α .sum, d.tokens = placed.map Prod.fst ∧ d.meaning = f := by
  unfold parseFormula tokenize at h
  split at h
  · exact nomatch h
  rename_i placed htokens
  split at h
  · exact nomatch h
  rename_i f' hparse
  obtain rfl := Except.ok.inj h
  split at htokens
  · rename_i hscan
    obtain rfl := Except.ok.inj htokens
    exact ⟨_, hscan, Grammar.exists_of_parseTokens hparse⟩
  · exact nomatch htokens

/-- **The words of a formula that are names are the names in it**, those of functions included, and
what stands behind the points of its numbers. -/
theorem mem_words_iff {text s : String} {f : Formula α} (h : parseFormula text = .ok f)
    (hs : isIdentifier s = true) :
    s.toList ∈ words text.toList ↔
      f.Mentions s ∨ ∃ n ∈ numerals text.toList, behindPoint n = s.toList := by
  obtain ⟨placed, hscan, d, htokens, rfl⟩ := exists_of_parseFormula h
  have hmentions : Formula.Mentions d.meaning s ↔ .name s ∈ d.tokens := d.mentionsTokens s
  have hname : String.ofList s.toList = s := String.ofList_toList
  unfold isIdentifier at hs
  split at hs
  · exact absurd hs Bool.false_ne_true
  rename_i c cs hcs
  have hwords : c :: cs ∈ words text.toList ↔ _ :=
    mem_words_of_scan hscan (htokens ▸ d.separated) (Bool.and_eq_true_iff.mp hs).1
  rw [← hcs, hname, ← htokens, ← hmentions] at hwords
  exact hwords

end

end ExplicitOde
