import ExplicitOde.Formula.Lower
import ExplicitOde.Proofs.Formula.Munch
import ExplicitOde.Proofs.Formula.Parse
import ExplicitOde.Scalar.Double

/-!
# Names as formulas

The rule for the names of declarations and the rule by which the scanner takes a name off a text
are written down apart. **They are the same rule**: a text is an identifier exactly if the scanner
cuts it into one token, the name that is the whole text.

So a name by itself is a formula, and it comes to what the table of symbols has for it. It does not
matter whether the text is also the name of a function or a constant, or begins like an exponent:
the parser takes a name for a call only in front of a parenthesis, the constant stands behind the
table, and no number begins with a letter.
-/

namespace ExplicitOde

variable {α : Type} [Scalar α] {s : String}

/-! ## What the scanner takes for a name -/

theorem Lexeme.isIdentifier {run after : List Char}
    (h : Lexeme after run (.name s : Token α)) : isIdentifier s = true := by
  cases h with
  | name hrun => exact hrun.holds

/-- The names among the tokens of a cut are identifiers. -/
theorem Segment.Cut.isIdentifier {after : List Char} {ps : List (Segment α)} (h : Cut after ps)
    (offset : Nat) (hs : .name s ∈ (places offset ps).map Prod.fst) : isIdentifier s = true := by
  induction h generalizing offset with
  | nil => exact absurd hs List.not_mem_nil
  | @cons p ps _ hlexeme _ ih =>
      rw [places, List.map_cons] at hs
      rcases List.mem_cons.mp hs with htoken | hs
      · replace htoken : .name s = p.token := htoken
        rw [← htoken] at hlexeme
        exact hlexeme.isIdentifier
      · exact ih _ hs

/-- In every text that is cut into tokens, the names are identifiers. -/
theorem isIdentifier_of_mem_tokenize {text : String} {placed : List (Placed α)}
    (h : tokenize text = .ok placed) (hs : .name s ∈ placed.map Prod.fst) :
    isIdentifier s = true := by
  obtain ⟨ps, gap, _, hcut, _, rfl⟩ := exists_cut_of_tokenize h
  exact hcut.isIdentifier 0 hs

/-- An identifier is cut into one name, since nothing behind its first character ends it. -/
theorem tokenize_name (hs : isIdentifier s = true) :
    (tokenize s : Except FormulaError (List (Placed α))) = .ok [(.name s, 0)] := by
  have hname : IsName s.toList := by rwa [IsName, String.ofList_toList]
  have hscan := (Lexeme.name (α := α) (Longest.atEnd hname)).scan 0
  rw [List.append_nil, String.ofList_toList, scan] at hscan
  rw [tokenize, hscan]
  rfl

/-! ## What the parser makes of it -/

/-- A text that is one identifier is the formula of that name. -/
theorem parseFormula_name (hs : isIdentifier s = true) :
    (parseFormula s : Except FormulaError (Formula α)) = .ok (.name s) := by
  have htokens : [(.name s, 0)].map Prod.fst = [(.name s : Token α)] := rfl
  have hparse := Grammar.parseTokens_of_tokens s.utf8ByteSize
    (.sum (.product (.unsigned (.base (.name s))) .noFactor) .noSummand)
    (htokens.trans (by simp [Grammar.Derivation.tokens]))
  rw [parseFormula, tokenize_name hs]
  dsimp only
  rw [hparse]
  rfl

/-- The table comes before the constant, and nothing is built. -/
theorem parseExpr_of_lookup {table : SymbolTable α} {e : Expr α} (hs : isIdentifier s = true)
    (he : table.lookup s = some e) (n : Nat) : parseExpr table s n = (.ok e, n) := by
  rw [parseExpr, parseFormula_name hs]
  dsimp only
  rw [Formula.lower, he]
  rfl

/-- **A text is an identifier if and only if the scanner cuts it into that name and nothing else**,
and an identifier that a table has is parsed as what the table has for it. -/
theorem isIdentifier_iff_tokenize (s : String) :
    (isIdentifier s = true ↔
      (tokenize s : Except FormulaError (List (Placed α))) = .ok [(.name s, 0)]) ∧
    ∀ (table : SymbolTable α) (e : Expr α), isIdentifier s = true → table.lookup s = some e →
      ∀ n, parseExpr table s n = (.ok e, n) := by
  refine ⟨⟨tokenize_name, fun h => ?_⟩, fun table e hs he => parseExpr_of_lookup hs he⟩
  exact isIdentifier_of_mem_tokenize h List.mem_cons_self

/-- Symbols with the names of a constant and of a function, and with a name like an exponent. -/
def homonyms : SymbolTable Float :=
  [("pi", .symbol 0 "pi"), ("sin", .symbol 1 "sin"), ("e5", .symbol 2 "e5")]

/-- Each of them is reached by its name, and its name is one token. -/
theorem isIdentifier_iff_tokenize_homonyms :
    (tokenize "e5" : Except FormulaError (List (Placed Float))) = .ok [(.name "e5", 0)] ∧
    parseExpr homonyms "pi" 3 = (.ok (.symbol 0 "pi"), 3) ∧
    parseExpr homonyms "sin" 3 = (.ok (.symbol 1 "sin"), 3) ∧
    parseExpr homonyms "e5" 3 = (.ok (.symbol 2 "e5"), 3) :=
  ⟨(isIdentifier_iff_tokenize "e5").1.mp (by decide),
    (isIdentifier_iff_tokenize "pi").2 homonyms _ (by decide) rfl 3,
    (isIdentifier_iff_tokenize "sin").2 homonyms _ (by decide) rfl 3,
    (isIdentifier_iff_tokenize "e5").2 homonyms _ (by decide) rfl 3⟩

end ExplicitOde
