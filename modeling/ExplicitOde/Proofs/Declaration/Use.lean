import ExplicitOde.Proofs.Declaration.Validation
import ExplicitOde.Proofs.Formula.Words
import ExplicitOde.Scalar.Double

/-!
# What strict validation asks for

Beyond plain validation, strict validation asks that every control and parameter is a word of some
derivative. **It refuses the first of them that occurs in no derivative**, neither as a variable nor
as the name of a function nor behind the point of a number: `validate_strict_iff`.

The last two are no use of a symbol. A parameter with the name of a function that is called passes,
and so does one named `e5` where a derivative has the number `1.e5`:
`validate_strict_unreferenced`.
-/

namespace ExplicitOde

namespace Declaration

/-- How a name occurs in a derivative. -/
inductive Occurs (α : Type) [Scalar α] (s rate : String) : Prop where
  | asVariable {f : Formula α} (h : parseFormula rate = .ok f) (hs : s ∈ f.names)
  | asFunction {f : Formula α} (h : parseFormula rate = .ok f) (hs : s ∈ f.calls)
  | inNumber {n : List Char} (h : n ∈ numerals rate.toList) (hs : behindPoint n = s.toList)

/-- The controls and parameters with their lists, in the order in which they are declared. -/
def inputs (d : Declaration) : List (Role × String) :=
  d.u.map (Role.control, ·) ++ d.parameters.map (Role.parameter, ·)

/-- The name is a word of a derivative. -/
def hasWord (d : Declaration) (s : String) : Bool :=
  (d.rates.flatMap fun rate => words rate.toList).contains s.toList

variable {α : Type} [Scalar α] {d : Declaration} {s rate : String}

/-- The words of a derivative that are names are those that occur in it. -/
theorem mem_words_iff_occurs {f : Formula α} (h : parseFormula rate = .ok f)
    (hs : isIdentifier s = true) : s.toList ∈ words rate.toList ↔ Occurs α s rate := by
  rw [mem_words_iff h hs]
  constructor
  · rintro ((hname | hcall) | ⟨n, hn, hbehind⟩)
    · exact .asVariable h hname
    · exact .asFunction h hcall
    · exact .inNumber hn hbehind
  · rintro (⟨h', hname⟩ | ⟨h', hcall⟩ | ⟨hn, hbehind⟩)
    · obtain rfl := Except.ok.inj (h.symm.trans h')
      exact Or.inl (Or.inl hname)
    · obtain rfl := Except.ok.inj (h.symm.trans h')
      exact Or.inl (Or.inr hcall)
    · exact Or.inr ⟨_, hn, hbehind⟩

omit [Scalar α] in
theorem filter_symbols :
    d.symbols.filter (fun symbol => decide (symbol.1 ≠ .state)) = d.inputs := by
  simp [symbols, inputs, List.filter_map, Function.comp_def]

omit [Scalar α] in
/-- The first control or parameter is looked for that is no word. -/
theorem checkUse_eq :
    d.checkUse = match d.inputs.find? fun input => !d.hasWord input.2 with
      | some (role, name) => .error (.unusedSymbol role name)
      | none => .ok () := by
  rw [← filter_symbols, List.find?_filter]
  unfold checkUse
  simp only [decide_eq_true_eq]
  rfl

omit [Scalar α] in
/-- Strict validation passes if every control and parameter is a word, and refuses the first that is
none. -/
theorem checkUse_iff :
    (d.checkUse = .ok () ↔ ∀ input ∈ d.inputs, d.hasWord input.2 = true) ∧
    ∀ e, d.checkUse = .error e ↔ ∃ before role name after,
      d.inputs = before ++ (role, name) :: after ∧ e = .unusedSymbol role name ∧
        d.hasWord name = false ∧ ∀ input ∈ before, d.hasWord input.2 = true := by
  -- what the check looks for is the first input that is no word
  have hfirst : ∀ role name, d.inputs.find? (fun input => !d.hasWord input.2) = some (role, name) ↔
      ∃ before after, d.inputs = before ++ (role, name) :: after ∧ d.hasWord name = false ∧
        ∀ input ∈ before, d.hasWord input.2 = true := by
    intro role name
    rw [List.find?_eq_some_iff_append]
    simp only [Bool.not_not, Bool.not_eq_true']
    constructor
    · rintro ⟨hno, before, after, hsplit, hbefore⟩
      exact ⟨before, after, hsplit, hno, hbefore⟩
    · rintro ⟨before, after, hsplit, hno, hbefore⟩
      exact ⟨hno, before, after, hsplit, hbefore⟩
  rw [checkUse_eq]
  cases hfind : d.inputs.find? fun input => !d.hasWord input.2 with
  | none =>
      have hall : ∀ input ∈ d.inputs, d.hasWord input.2 = true := by
        simpa using List.find?_eq_none.mp hfind
      refine ⟨iff_of_true rfl hall, fun e => iff_of_false (fun h => nomatch h) ?_⟩
      rintro ⟨before, role, name, after, hsplit, _, hno, hbefore⟩
      exact nomatch hfind.symm.trans ((hfirst role name).mpr ⟨before, after, hsplit, hno, hbefore⟩)
  | some input =>
      obtain ⟨role, name⟩ := input
      constructor
      · refine iff_of_false (fun h => nomatch h) fun hall => ?_
        exact absurd (hall _ (List.mem_of_find?_eq_some hfind))
          (by simpa using List.find?_some hfind)
      · intro e
        constructor
        · intro h
          obtain ⟨before, after, hsplit, hrest⟩ := (hfirst role name).mp hfind
          exact ⟨before, role, name, after, hsplit, (Except.error.inj h).symm, hrest⟩
        · rintro ⟨before, role', name', after, hsplit, rfl, hrest⟩
          have hsame := hfind.symm.trans ((hfirst role' name').mpr ⟨before, after, hsplit, hrest⟩)
          obtain ⟨rfl, rfl⟩ := Prod.mk.inj (Option.some.inj hsame)
          rfl

omit [Scalar α] in
/-- What plain validation accepts is checked for use. -/
theorem validate_strict_eq (h : d.validate .plain = .ok ()) : d.validate .strict = d.checkUse := by
  obtain ⟨hname, hx, hsymbols, hrates, -⟩ := validate_eq_ok_iff.mp h
  rw [validate, hsymbols, hrates, if_neg (by simp [hname]), if_neg (by simpa using hx)]
  rfl

/-- The derivatives are formulas. -/
def RatesParse (α : Type) [Scalar α] (d : Declaration) : Prop :=
  ∀ rate ∈ d.rates, ∃ f : Formula α, parseFormula rate = .ok f

/-- In derivatives that are formulas, the words that are names are what occurs. -/
theorem hasWord_iff (hparse : d.RatesParse α) (hs : isIdentifier s = true) :
    d.hasWord s = true ↔ ∃ rate ∈ d.rates, Occurs α s rate := by
  rw [hasWord, List.contains_iff_mem, List.mem_flatMap]
  refine exists_congr fun rate => and_congr_right fun hrate => ?_
  obtain ⟨f, hf⟩ := hparse rate hrate
  exact mem_words_iff_occurs hf hs

omit [Scalar α] in
/-- The names of controls and parameters are identifiers. -/
theorem isIdentifier_of_mem_inputs (h : d.validate .plain = .ok ()) :
    ∀ input ∈ d.inputs, isIdentifier input.2 = true := by
  obtain ⟨-, -, hsymbols, -⟩ := validate_eq_ok_iff.mp h
  intro input hinput
  rw [← filter_symbols] at hinput
  have hmem := List.mem_map_of_mem (f := Prod.snd) (List.mem_filter.mp hinput).1
  exact ((checkSymbols_eq_ok_iff.mp hsymbols).1 _ hmem).1

/-- **Strict validation refuses the first control or parameter that occurs in no derivative**, of
the declarations that plain validation accepts and whose derivatives are formulas. It accepts the
others. -/
theorem validate_strict_iff (hplain : d.validate .plain = .ok ()) (hparse : d.RatesParse α) :
    (d.validate .strict = .ok () ↔ ∀ input ∈ d.inputs, ∃ rate ∈ d.rates, Occurs α input.2 rate) ∧
    ∀ e, d.validate .strict = .error e ↔ ∃ before role name after,
      d.inputs = before ++ (role, name) :: after ∧ e = .unusedSymbol role name ∧
        (¬∃ rate ∈ d.rates, Occurs α name rate) ∧
        ∀ input ∈ before, ∃ rate ∈ d.rates, Occurs α input.2 rate := by
  have hword : ∀ input ∈ d.inputs,
      (d.hasWord input.2 = true ↔ ∃ rate ∈ d.rates, Occurs α input.2 rate) :=
    fun input hinput => hasWord_iff hparse (isIdentifier_of_mem_inputs hplain input hinput)
  rw [validate_strict_eq hplain]
  refine ⟨checkUse_iff.1.trans (forall₂_congr hword), fun e => (checkUse_iff.2 e).trans ?_⟩
  refine exists_congr fun before => exists_congr fun role => exists_congr fun name =>
    exists_congr fun after => and_congr_right fun hsplit => and_congr_right fun _ => ?_
  rw [hsplit] at hword
  refine and_congr ?_
    (forall₂_congr fun input hinput => hword input (List.mem_append_left _ hinput))
  rw [← Bool.not_eq_true]
  exact not_congr (hword (role, name) (by simp))

/-- A declaration with a parameter that only begins the name of another. -/
def spare : Declaration where
  schema := "1.0"
  name := "spare"
  representation := "SX"
  description := none
  x := ["a"]
  u := []
  p := some ["ka", "k"]
  rates := ["-ka * a"]

/-- The parameter `k` is refused. -/
theorem validate_strict_spare : spare.validate .plain = .ok () ∧ spare.RatesParse Float ∧
    spare.validate .strict = .error (.unusedSymbol .parameter "k") := by
  have hplain : spare.validate .plain = .ok () := by rfl
  have hrate : (parseFormula "-ka * a" : Except FormulaError (Formula Float)) =
      .ok (.binary .mul (.neg (.name "ka")) (.name "a")) := by
    cbv
  have hparse : spare.RatesParse Float := List.forall_mem_singleton.mpr ⟨_, hrate⟩
  refine ⟨hplain, hparse, ((validate_strict_iff hplain hparse).2 _).mpr
    ⟨[(.parameter, "ka")], .parameter, "k", [], rfl, rfl, ?_, List.forall_mem_singleton.mpr ?_⟩⟩
  · rintro ⟨rate, hmem, hoccurs⟩
    obtain rfl := List.mem_singleton.mp hmem
    rcases hoccurs with ⟨h, hs⟩ | ⟨h, hs⟩ | ⟨h, -⟩
    · obtain rfl := Except.ok.inj (hrate.symm.trans h)
      simp [Formula.names] at hs
    · obtain rfl := Except.ok.inj (hrate.symm.trans h)
      simp [Formula.calls] at hs
    · have hnumerals : numerals "-ka * a".toList = [] := by cbv
      rw [hnumerals] at h
      exact absurd h List.not_mem_nil
  · exact ⟨_, List.mem_singleton_self _, .asVariable hrate (by simp [Formula.names])⟩

/-- A declaration with two parameters that are only written in its derivative: one has the name of
the function there, the other is spelled within the number. -/
def unreferenced : Declaration where
  schema := "1.0"
  name := "unreferenced"
  representation := "SX"
  description := none
  x := ["a"]
  u := []
  p := some ["sin", "e5"]
  rates := ["sin(a)+1.e5*a"]

theorem parseFormula_unreferenced :
    (parseFormula "sin(a)+1.e5*a" : Except FormulaError (Formula α)) =
      .ok (.binary .add (.call "sin" [.name "a"])
        (.binary .mul (.number (Scalar.ofDecimal ⟨1, 5⟩)) (.name "a"))) := by
  cbv

/-- **Strict validation accepts parameters that are no variables of any derivative.** -/
theorem validate_strict_unreferenced :
    unreferenced.validate .plain = .ok () ∧
    (∃ f : Formula Float, unreferenced.rates.map parseFormula = [.ok f] ∧
      ∀ name ∈ unreferenced.parameters, name ∉ f.names) ∧
    unreferenced.parameters = ["sin", "e5"] ∧ unreferenced.validate .strict = .ok () := by
  have hplain : unreferenced.validate .plain = .ok () := by rfl
  have hrate := parseFormula_unreferenced (α := Float)
  have hparse : unreferenced.RatesParse Float := List.forall_mem_singleton.mpr ⟨_, hrate⟩
  refine ⟨hplain, ⟨_, congrArg (fun result => [result]) hrate, ?_⟩, rfl, ?_⟩
  · simp [unreferenced, parameters, Formula.names]
  rw [validate_strict_eq hplain, checkUse_iff.1]
  refine List.forall_mem_cons.mpr ⟨?_, List.forall_mem_singleton.mpr ?_⟩
  · exact (hasWord_iff hparse (by decide)).mpr
      ⟨_, List.mem_singleton_self _, .asFunction hrate (by simp [Formula.calls])⟩
  · have hnumerals : numerals "sin(a)+1.e5*a".toList = ["1.e5".toList] := by cbv
    have hbehind : behindPoint "1.e5".toList = "e5".toList := by cbv
    have hnumber : "1.e5".toList ∈ numerals "sin(a)+1.e5*a".toList :=
      hnumerals ▸ List.mem_singleton_self _
    have hoccurs : Occurs Float "e5" "sin(a)+1.e5*a" := .inNumber hnumber hbehind
    have hname : isIdentifier "e5" = true := by rfl
    exact (hasWord_iff hparse hname).mpr ⟨"sin(a)+1.e5*a", List.mem_singleton_self _, hoccurs⟩

end Declaration

end ExplicitOde
