import ExplicitOde.Formula.Parse
import Mathlib.Tactic.SplitIfs

/-!
# Texts without a token

A text is refused as empty if it has nothing but blanks, and no other text is: the scanner leaves no
token of blanks alone, and behind a first token neither the scanner nor a function of the parser
ever says that there is none. So validation, which asks for a character that is no blank, and the
parser, which asks for a token, mean the same: `parseFormula_empty_iff`.
-/

namespace ExplicitOde

variable {α : Type}

/-- If this is refused, then not for want of any token. -/
def SeesToken {β : Type} (x : Except Located β) : Prop :=
  ∀ problem position, x = .error (problem, position) → problem ≠ .emptyFormula

/-! ## The scanner -/

section

variable [Scalar α]

/-- No token is left of blanks, and only of them. -/
theorem scan_eq_nil_iff (offset : Nat) {cs : List Char} :
    scan offset cs = .ok ([] : List (Placed α)) ↔ ∀ c ∈ cs, isBlank c = true := by
  fun_induction scan (α := α) offset cs with
  | case1 => exact ⟨fun _ => List.forall_mem_nil _, fun _ => rfl⟩
  | case2 offset c cs hblank ih => rw [ih, List.forall_mem_cons, and_iff_right hblank]
  | case3 offset c cs hblank | case4 offset c cs hblank | case5 offset c cs hblank
  | case6 offset c cs hblank | case7 offset c cs hblank | case8 offset c cs hblank
  | case9 offset c cs hblank | case10 offset c cs hblank =>
      -- the first character is no blank, and is refused or begins a token
      exact ⟨fun h => (nomatch h), fun h => absurd (h c List.mem_cons_self) hblank⟩

/-- The scanner refuses numbers and characters, never the whole text. -/
theorem seesToken_scan (offset : Nat) (cs : List Char) :
    SeesToken (scan offset cs : Except Located (List (Placed α))) := by
  intro problem position h
  fun_induction scan (α := α) offset cs with
  | case1 | case5 | case7 | case10 => exact nomatch h
  | case2 _ _ _ _ ih => exact ih h
  | case3 | case8 =>
      obtain ⟨rfl, _⟩ := Prod.mk.inj (Except.error.inj h)
      exact FormulaProblem.noConfusion
  | case4 | case6 | case9 =>
      rename_i e hrest ih
      obtain rfl := Except.error.inj h
      exact ih hrest

end

/-! ## The parser -/

/-- **The functions of the parser refuse a row for a token, or for its end**, and never as a row
without tokens. -/
theorem seesToken_parseSum (stop : Nat) (tokens : List (Placed α)) :
    SeesToken (parseSum stop tokens) := by
  -- along the recursion of the parser: a refusal is that of a part, or is made on the spot
  apply parseSum.induct stop (fun ts => SeesToken (parseSum stop ts))
    (fun lhs ts => SeesToken (parseSummands stop lhs ts))
    (fun ts => SeesToken (parseProduct stop ts))
    (fun lhs ts => SeesToken (parseFactors stop lhs ts))
    (fun ts => SeesToken (parseUnary stop ts))
    (fun ts => SeesToken (parsePower stop ts))
    (fun ts => SeesToken (parsePrimary stop ts))
    (fun ts => SeesToken (parseArguments stop ts))
  all_goals intros
  all_goals first
    | rw [parseSum.eq_def] | rw [parseSummands.eq_def] | rw [parseProduct.eq_def]
    | rw [parseFactors.eq_def] | rw [parseUnary.eq_def] | rw [parsePower.eq_def]
    | rw [parsePrimary.eq_def] | rw [parseArguments.eq_def]
  all_goals simp_all [SeesToken, problemAt]
  -- what is left looks at the token behind a part
  all_goals split <;> simp_all
  all_goals
    obtain ⟨rfl, rfl⟩ := ‹_ ∧ _›
    simp_all

/-! ## Whole texts -/

/-- A row of tokens is refused as empty if it is. -/
theorem parseTokens_empty_iff (stop : Nat) {tokens : List (Placed α)} :
    (∃ position, parseTokens stop tokens = .error (.emptyFormula, position)) ↔ tokens = [] := by
  rw [parseTokens]
  constructor
  · rintro ⟨position, h⟩
    split_ifs at h with hempty
    · exact List.isEmpty_iff.mp hempty
    split at h
    · rename_i hsum
      obtain rfl := Except.error.inj h
      exact absurd rfl (seesToken_parseSum stop tokens _ _ hsum)
    · split_ifs at h
      cases h
  · rintro rfl
    exact ⟨stop, rfl⟩

/-- **A text is refused as empty if it has nothing but blanks, and no other text is.** -/
theorem parseFormula_empty_iff [Scalar α] {text : String} :
    (∃ e, (parseFormula text : Except FormulaError (Formula α)) = .error e ∧
      e.problem = .emptyFormula) ↔ allBlank text = true := by
  rw [allBlank, List.all_eq_true, ← scan_eq_nil_iff (α := α) 0, parseFormula, tokenize]
  cases hscan : (scan 0 text.toList : Except Located (List (Placed α))) with
  | error located =>
      refine ⟨?_, fun h => (nomatch h)⟩
      rintro ⟨e, he, hproblem⟩
      obtain rfl := Except.error.inj he
      exact absurd hproblem (seesToken_scan 0 text.toList _ _ hscan)
  | ok tokens =>
      dsimp only
      rw [Except.ok.injEq, ← parseTokens_empty_iff text.utf8ByteSize]
      constructor
      · rintro ⟨e, he, hproblem⟩
        split at he
        · rename_i problem position hparse
          obtain rfl := Except.error.inj he
          exact ⟨position, hproblem ▸ hparse⟩
        · exact nomatch he
      · rintro ⟨position, hparse⟩
        rw [hparse]
        exact ⟨_, rfl, rfl⟩

end ExplicitOde
