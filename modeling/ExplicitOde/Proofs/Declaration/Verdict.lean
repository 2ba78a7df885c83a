import ExplicitOde.Proofs.Declaration.Meaning
import ExplicitOde.Proofs.Declaration.Renaming
import ExplicitOde.Proofs.Formula.Blank
import ExplicitOde.Proofs.Formula.Name
import ExplicitOde.Scalar.Double

/-!
# What validation says of a declaration

Plain validation accepts the declarations that are well declared, and **of the rules that another
one breaks the first tells how it is refused**: that for the name of the model, that there are
states, those for the symbols, for their number of rates, and for the rates themselves. Among the
symbols it is the first that is no identifier or is there already, among the rates the first that is
blank. `Verdict` has a case for each, and `validate_iff_verdict` says that there is no other.

What validation lets through reads well (`Readable`). The parser finds a token in every rate, and a
declared name by itself is the symbol that stands at its place among the states, the controls or the
parameters of the model.
-/

namespace ExplicitOde

open ExplicitOde.Expr

namespace Declaration

variable {α : Type} {d : Declaration} {role : Role} {name : String}
  {symbols before after : List (Role × String)} {seen : List String}

/-! ## Symbols -/

/-- The names of the symbols are identifiers, and no two of them are the same. -/
structure Distinct (symbols : List (Role × String)) : Prop where
  identifiers : ∀ s ∈ symbols.map Prod.snd, isIdentifier s = true
  nodup : (symbols.map Prod.snd).Nodup

theorem checkSymbols_of_distinct (h : Distinct symbols) : checkSymbols [] symbols = .ok () :=
  checkSymbols_eq_ok_iff.mpr
    ⟨fun s hs => ⟨h.identifiers s hs, List.not_mem_nil⟩, h.nodup⟩

/-- Behind symbols that pass, their names have been seen. -/
theorem checkSymbols_append (h : checkSymbols seen before = .ok ()) :
    checkSymbols seen (before ++ after) =
      checkSymbols ((before.map Prod.snd).reverse ++ seen) after := by
  induction before generalizing seen with
  | nil => rfl
  | cons symbol before ih =>
      obtain ⟨role, name⟩ := symbol
      rw [checkSymbols] at h
      rw [List.cons_append, checkSymbols]
      split_ifs at h ⊢
      rw [ih h, List.map_cons, List.reverse_cons, List.append_assoc, List.singleton_append]

/-- A name that is no identifier is refused behind symbols that pass. -/
theorem checkSymbols_of_invalid (hbefore : Distinct before) (hname : isIdentifier name = false) :
    checkSymbols [] (before ++ (role, name) :: after) = .error (.invalidSymbol role name) := by
  rw [checkSymbols_append (checkSymbols_of_distinct hbefore), checkSymbols, hname]
  rfl

/-- A name that is there already is refused behind symbols that pass. -/
theorem checkSymbols_of_repeated (hbefore : Distinct before)
    (hname : name ∈ before.map Prod.snd) :
    checkSymbols [] (before ++ (role, name) :: after) = .error (.repeatedSymbol name) := by
  have hseen : ((before.map Prod.snd).reverse ++ []).contains name = true := by
    rw [List.append_nil, List.contains_iff_mem, List.mem_reverse]
    exact hname
  rw [checkSymbols_append (checkSymbols_of_distinct hbefore), checkSymbols,
    hbefore.identifiers name hname, hseen]
  rfl

/-- Symbols are distinct, or there is a first that is no identifier or is there already. -/
theorem distinct_or_refused (symbols : List (Role × String)) :
    Distinct symbols ∨ ∃ before role name after, symbols = before ++ (role, name) :: after ∧
      Distinct before ∧ (isIdentifier name = false ∨ name ∈ before.map Prod.snd) := by
  induction symbols using List.reverseRecOn with
  | nil => exact Or.inl ⟨List.forall_mem_nil _, List.nodup_nil⟩
  | append_singleton symbols last ih =>
      obtain ⟨role, name⟩ := last
      rcases ih with hdistinct | ⟨before, role', name', after, rfl, hbefore, hrefused⟩
      swap
      · exact Or.inr ⟨before, role', name', after ++ [(role, name)], by simp, hbefore, hrefused⟩
      by_cases hname : isIdentifier name = true ∧ name ∉ symbols.map Prod.snd
      · refine Or.inl ⟨?_, ?_⟩
        · rw [List.map_append, List.forall_mem_append]
          exact ⟨hdistinct.identifiers, List.forall_mem_singleton.mpr hname.1⟩
        · rw [List.map_append, List.nodup_append]
          refine ⟨hdistinct.nodup, List.nodup_singleton _, fun s hs t ht heq => ?_⟩
          obtain rfl := List.mem_singleton.mp ht
          exact hname.2 (heq ▸ hs)
      · refine Or.inr ⟨symbols, role, name, [], rfl, hdistinct, ?_⟩
        rwa [not_and_or, Bool.not_eq_true, not_not] at hname

/-! ## Rates -/

/-- The first blank rate is refused. -/
theorem checkRates_of_blank {before after : List String} {rate : String}
    (hcount : d.rates.length = d.x.length) (hsplit : d.rates = before ++ rate :: after)
    (hbefore : ∀ rate ∈ before, allBlank rate = false) (hrate : allBlank rate = true) :
    d.checkRates = .error (.blankRate before.length) := by
  have hfirst : d.rates.findIdx? allBlank = some before.length := by
    rw [hsplit, List.findIdx?_append, List.findIdx?_eq_none_iff.mpr hbefore, List.findIdx?_cons,
      if_pos hrate]
    simp
  rw [checkRates, if_neg (not_not.mpr hcount), hfirst]

/-- No rate is blank, or there is a first that is. -/
theorem blank_or_not (rates : List String) :
    (∀ rate ∈ rates, allBlank rate = false) ∨ ∃ before rate after,
      rates = before ++ rate :: after ∧ (∀ rate ∈ before, allBlank rate = false) ∧
        allBlank rate = true := by
  cases hfirst : rates.find? allBlank with
  | none => exact Or.inl fun rate hrate => by simpa using List.find?_eq_none.mp hfirst rate hrate
  | some rate =>
      obtain ⟨hblank, before, after, hsplit, hbefore⟩ := List.find?_eq_some_iff_append.mp hfirst
      exact Or.inr ⟨before, rate, after, hsplit, fun r hr => by simpa using hbefore r hr, hblank⟩

/-! ## Verdicts -/

/-- The name of the model is an identifier, and there are states. -/
structure Begun (d : Declaration) : Prop where
  name : isIdentifier d.name = true
  states : d.x ≠ []

/-- All that validation asks for. -/
structure WellDeclared (d : Declaration) : Prop extends d.Begun where
  identifiers : ∀ s ∈ d.names, isIdentifier s = true
  distinct : d.names.Nodup
  count : d.rates.length = d.x.length
  rates : ∀ rate ∈ d.rates, allBlank rate = false

/-- What is said of a declaration. Every case takes it that no earlier rule is broken. -/
inductive Verdict (d : Declaration) : Except DeclarationError Unit → Prop
  | invalidName (hname : isIdentifier d.name = false) : Verdict d (.error (.invalidName d.name))
  | missingStates (hname : isIdentifier d.name = true) (hstates : d.x = []) :
      Verdict d (.error .missingStates)
  | invalidSymbol {before after : List (Role × String)} {role : Role} {name : String}
      (hbegun : d.Begun) (hsplit : d.symbols = before ++ (role, name) :: after)
      (hbefore : Distinct before) (hname : isIdentifier name = false) :
      Verdict d (.error (.invalidSymbol role name))
  | repeatedSymbol {before after : List (Role × String)} {role : Role} {name : String}
      (hbegun : d.Begun) (hsplit : d.symbols = before ++ (role, name) :: after)
      (hbefore : Distinct before) (hname : name ∈ before.map Prod.snd) :
      Verdict d (.error (.repeatedSymbol name))
  | rateCount (hbegun : d.Begun) (hsymbols : Distinct d.symbols)
      (hcount : d.rates.length ≠ d.x.length) :
      Verdict d (.error (.rateCount d.x.length d.rates.length))
  | blankRate {before after : List String} {rate : String} (hbegun : d.Begun)
      (hsymbols : Distinct d.symbols) (hcount : d.rates.length = d.x.length)
      (hsplit : d.rates = before ++ rate :: after)
      (hbefore : ∀ rate ∈ before, allBlank rate = false) (hrate : allBlank rate = true) :
      Verdict d (.error (.blankRate before.length))
  | accepted (h : d.WellDeclared) : Verdict d (.ok ())

/-- Behind the first two rules come those for symbols and for rates. -/
theorem Begun.validate (h : d.Begun) :
    d.validate .plain = checkSymbols [] d.symbols >>= fun _ => d.checkRates := by
  rw [Declaration.validate, if_neg (by simp [h.name]), if_neg (by simpa using h.states)]
  refine congrArg (checkSymbols [] d.symbols >>= ·) (funext fun _ => ?_)
  cases d.checkRates <;> rfl

theorem validate_of_refused_symbols (h : d.Begun) {e : DeclarationError}
    (hsymbols : checkSymbols [] d.symbols = .error e) : d.validate .plain = .error e := by
  rw [h.validate, hsymbols]
  rfl

theorem validate_of_distinct (h : d.Begun) (hsymbols : Distinct d.symbols) :
    d.validate .plain = d.checkRates := by
  rw [h.validate, checkSymbols_of_distinct hsymbols]
  rfl

theorem distinct_symbols_iff :
    Distinct d.symbols ↔ (∀ s ∈ d.names, isIdentifier s = true) ∧ d.names.Nodup := by
  rw [← snd_symbols]
  exact ⟨fun h => ⟨h.identifiers, h.nodup⟩, fun h => ⟨h.1, h.2⟩⟩

/-- Validation says what the verdict is. -/
theorem validate_of_verdict {result : Except DeclarationError Unit} (h : d.Verdict result) :
    d.validate .plain = result := by
  cases h with
  | invalidName hname =>
      rw [validate, if_pos (by simp [hname])]
      rfl
  | missingStates hname hstates =>
      rw [validate, if_neg (by simp [hname]), if_pos (List.isEmpty_iff.mpr hstates)]
      rfl
  | invalidSymbol hbegun hsplit hbefore hname =>
      exact validate_of_refused_symbols hbegun (hsplit ▸ checkSymbols_of_invalid hbefore hname)
  | repeatedSymbol hbegun hsplit hbefore hname =>
      exact validate_of_refused_symbols hbegun (hsplit ▸ checkSymbols_of_repeated hbefore hname)
  | rateCount hbegun hsymbols hcount =>
      rw [validate_of_distinct hbegun hsymbols, checkRates, if_pos hcount]
  | blankRate hbegun hsymbols hcount hsplit hbefore hrate =>
      rw [validate_of_distinct hbegun hsymbols, checkRates_of_blank hcount hsplit hbefore hrate]
  | accepted h =>
      rw [validate_of_distinct h.toBegun (distinct_symbols_iff.mpr ⟨h.identifiers, h.distinct⟩)]
      exact checkRates_eq_ok_iff.mpr ⟨h.count, h.rates⟩

/-- There is a verdict on every declaration. -/
theorem exists_verdict (d : Declaration) : ∃ result, d.Verdict result := by
  by_cases hname : isIdentifier d.name = true
  swap
  · exact ⟨_, .invalidName (Bool.not_eq_true _ ▸ hname)⟩
  by_cases hstates : d.x = []
  · exact ⟨_, .missingStates hname hstates⟩
  have hbegun : d.Begun := ⟨hname, hstates⟩
  rcases distinct_or_refused d.symbols with
    hsymbols | ⟨before, role, name, after, hsplit, hbefore, hinvalid | hrepeated⟩
  · by_cases hcount : d.rates.length = d.x.length
    · rcases blank_or_not d.rates with hrates | ⟨before, rate, after, hsplit, hbefore, hrate⟩
      · obtain ⟨hidentifiers, hdistinct⟩ := distinct_symbols_iff.mp hsymbols
        exact ⟨_, .accepted ⟨hbegun, hidentifiers, hdistinct, hcount, hrates⟩⟩
      · exact ⟨_, .blankRate hbegun hsymbols hcount hsplit hbefore hrate⟩
    · exact ⟨_, .rateCount hbegun hsymbols hcount⟩
  · exact ⟨_, .invalidSymbol hbegun hsplit hbefore hinvalid⟩
  · exact ⟨_, .repeatedSymbol hbegun hsplit hbefore hrepeated⟩

/-! ## Names by themselves -/

/-- The symbol of a declared name stands where the name does: at the same place among the states,
the controls or the parameters. -/
inductive StandsFor (d : Declaration) (m : Model α) : String → Expr α → Prop
  | state {i id : Nat} {s : String} (hs : d.x[i]? = some s)
      (he : m.x.elements[i]? = some (.symbol id s)) : StandsFor d m s (.symbol id s)
  | control {i id : Nat} {s : String} (hs : d.u[i]? = some s)
      (he : m.u.elements[i]? = some (.symbol id s)) : StandsFor d m s (.symbol id s)
  | parameter {i id : Nat} {s : String} (hs : d.parameters[i]? = some s)
      (he : m.parameters.elements[i]? = some (.symbol id s)) : StandsFor d m s (.symbol id s)

theorem getElem?_symbolsFrom (first : Nat) {names : List String} {i : Nat} {s : String}
    (h : names[i]? = some s) :
    (symbolsFrom first names : List (Expr α))[i]? = some (.symbol (first + i) s) := by
  rw [symbolsFrom, List.getElem?_map, List.getElem?_zipIdx, h]
  rfl

/-- The symbol of one of some names, where their identities start with a number. -/
def symbolOf (first : Nat) (names : List String) (s : String) : Expr α :=
  .symbol (first + names.idxOf s) s

/-- The table of distinct names has the symbol of each of them. -/
theorem lookup_symbolsFrom (first : Nat) {names : List String} (hnodup : names.Nodup) {s : String}
    (hs : s ∈ names) :
    (SymbolTable.ofExprs (symbolsFrom first names : List (Expr α))).lookup s =
      some (symbolOf first names s) := by
  have hplace := getElem?_symbolsFrom (α := α) first (List.getElem?_idxOf hs)
  refine lookup_eq_some_of_mem ?_ (SymbolTable.mem_ofExprs.mpr ⟨List.mem_of_getElem? hplace, rfl⟩)
  -- the keys of the table are the names, from the last to the first
  rw [SymbolTable.ofExprs_eq (symbolName?_symbolsFrom first names), List.map_reverse,
    List.map_fst_zip (le_of_eq (length_symbolsFrom first names).symm), List.nodup_reverse]
  exact hnodup

/-- The symbol of a declared name stands where the name does. -/
theorem standsFor_symbolOf (representation : Representation) (first : Nat) (rates : List (Expr α))
    (hnodup : d.names.Nodup) {s : String} (hs : s ∈ d.names) :
    d.StandsFor (d.modelOver representation first rates) s (symbolOf first d.names s) := by
  have hplace : ∀ {i : Nat}, d.names[i]? = some s →
      symbolOf first d.names s = (.symbol (first + i) s : Expr α) := by
    intro i hi
    obtain ⟨hlt, rfl⟩ := List.getElem?_eq_some_iff.mp hi
    rw [symbolOf, hnodup.idxOf_getElem i hlt]
  rw [names, List.mem_append, List.mem_append] at hs
  -- names are numbered through the three lists, so those of the lists before are skipped
  rcases hs with (hs | hs) | hs
  · obtain ⟨i, hi⟩ := List.getElem?_of_mem hs
    have hname : d.names[i]? = some s := by
      rw [names, List.append_assoc, List.getElem?_append_left (List.getElem?_eq_some_iff.mp hi).1,
        hi]
    rw [hplace hname]
    exact .state hi (getElem?_symbolsFrom _ hi)
  · obtain ⟨i, hi⟩ := List.getElem?_of_mem hs
    have hname : d.names[d.x.length + i]? = some s := by
      rw [names, List.append_assoc, List.getElem?_append_right (Nat.le_add_right _ _),
        Nat.add_sub_cancel_left, List.getElem?_append_left (List.getElem?_eq_some_iff.mp hi).1, hi]
    rw [hplace hname, ← Nat.add_assoc]
    exact .control hi (getElem?_symbolsFrom _ hi)
  · obtain ⟨i, hi⟩ := List.getElem?_of_mem hs
    have hname : d.names[(d.x ++ d.u).length + i]? = some s := by
      rw [names, List.getElem?_append_right (Nat.le_add_right _ _), Nat.add_sub_cancel_left, hi]
    have hsome : ¬d.parameters.isEmpty = true :=
      fun h => List.not_mem_nil (List.isEmpty_iff.mp h ▸ hs)
    rw [hplace hname, List.length_append, ← Nat.add_assoc]
    refine .parameter hi ?_
    rw [modelOver, if_neg hsome]
    exact getElem?_symbolsFrom _ hi

section

variable [Scalar α]

/-- Rates that are names of a table are what the table has, and nothing is built. -/
theorem rateExprs_of_names {table : SymbolTable α} {rates : List String} {es : List (Expr α)}
    (h : List.Forall₂ (fun s e => isIdentifier s = true ∧ table.lookup s = some e) rates es)
    (index n : Nat) : rateExprs table index rates n = (.ok es, n) := by
  induction h generalizing index with
  | nil => rfl
  | @cons s e rates es hone _ ih =>
      obtain ⟨hs, he⟩ := hone
      have hrun : ((parseExpr table s).adapt (DeclarationError.invalidRate index)) n =
          (.ok e, n) := by
        rw [adapt_eq, parseExpr_of_lookup hs he]
        rfl
      rw [rateExprs, bind_run hrun, bind_run (ih (index + 1))]
      rfl

end

theorem namedSymbols_run (kind : Kind) (names : List String) (n : Nat) :
    (ExprMatrix.namedSymbols kind names : Build (ExprMatrix α)) n =
      (.column kind (symbolsFrom n names), n + names.length) := by
  rw [ExprMatrix.namedSymbols, build_bind_run (mapM_mkSymbol names n)]
  rfl

theorem parameterSymbols_run (kind : Kind) (d : Declaration) (n : Nat) :
    (d.parameterSymbols kind : Build (Option (ExprMatrix α))) n =
      (if d.parameters.isEmpty then none else some (.column kind (symbolsFrom n d.parameters)),
        n + d.parameters.length) := by
  rw [parameterSymbols]
  split_ifs with hempty
  · rw [List.isEmpty_iff.mp hempty]
    rfl
  · rw [build_bind_run (namedSymbols_run kind d.parameters n)]
    rfl

/-- Rates that are declared names are the symbols of these names. -/
theorem toModel_of_names [Scalar α] {representation : Representation} {es : List (Expr α)}
    (hrepresentation : Representation.ofName? d.representation = some representation) {n : Nat}
    (h : List.Forall₂ (fun s e => isIdentifier s = true ∧
      (SymbolTable.ofExprs (symbolsFrom n d.names)).lookup s = some e) d.rates es) :
    ∃ next, (d.toModel : Attempt DescriptionError (Model α)) n =
      (.ok (d.modelOver representation n es), next) := by
  -- nothing is built for the rates
  have hrates := rateExprs_of_names h 0 (n + (d.x.length + d.u.length) + d.parameters.length)
  refine ⟨n + (d.x.length + d.u.length) + d.parameters.length, ?_⟩
  rw [toModel, hrepresentation]
  dsimp only
  rw [lift_bind_run, namedSymbols_run]
  dsimp only
  rw [lift_bind_run, namedSymbols_run]
  dsimp only
  rw [lift_bind_run, parameterSymbols_run, Nat.add_assoc n]
  dsimp only
  rw [elements_declared, bind_run (x := (rateExprs _ 0 d.rates).adapt _) (b := es)
    (by rw [adapt_eq, hrates]; rfl), modelOver]
  split_ifs <;> rfl

/-! ## What validation lets through -/

variable (α) in
/-- The parser finds a token in every rate, and a declared name by itself is the symbol at its
place. -/
structure Readable [Scalar α] (d : Declaration) : Prop where
  /-- No rate is refused as empty. -/
  notEmpty : ∀ rate ∈ d.rates, ∀ e, (parseFormula rate : Except FormulaError (Formula α)) =
    .error e → e.problem ≠ .emptyFormula
  /-- With declared names for rates there is a model, and its rates are their symbols. -/
  names : ∀ representation, Representation.ofName? d.representation = some representation →
    ∀ rates : List String, (∀ s ∈ rates, s ∈ d.names) → ∀ n, ∃ (m : Model α) (next : Nat),
      ({ d with rates := rates }.toModel : Attempt DescriptionError (Model α)) n =
        (.ok m, next) ∧ List.Forall₂ (d.StandsFor m) rates m.rate.elements
  /-- In the model of the declaration a rate that is a declared name is its symbol. -/
  alone : ∀ n next (m : Model α), (d.toModel : Attempt DescriptionError (Model α)) n =
    (.ok m, next) → ∀ (i : Nat) (s : String), d.rates[i]? = some s → s ∈ d.names →
      ∃ e, m.rate.elements[i]? = some e ∧ d.StandsFor m s e

/-- A name comes to what the table has for it. -/
theorem lowering_name [Scalar α] {table : SymbolTable α} {pool : Pool α}
    (htable : ∀ s e, table.lookup s = some e → e ∈ pool) :
    Formula.Lowering table pool fun p f e =>
      e ∈ p ∧ ∀ s e', f = .name s → table.lookup s = some e' → e = e' where
  grow hle h := ⟨Pool.mem_of_le hle h.1, h.2⟩
  number _ v := (mkConst_mem v).imp fun _ _ _ h => ⟨h.1, fun _ _ hf => (nomatch hf)⟩
  name hle hs := ⟨Pool.mem_of_le hle (htable _ _ hs), fun _ _ hf hs' => by
    obtain rfl := Formula.name.inj hf
    exact Option.some.inj (hs.symm.trans hs')⟩
  pi _ hnone := (mkConst_mem _).imp fun _ _ _ h => ⟨h.1, fun _ _ hf hs => by
    obtain rfl := Formula.name.inj hf
    exact nomatch hnone.symm.trans hs⟩
  neg h := (mkUnary_mem .neg h.1).imp fun _ _ _ he => ⟨he, fun _ _ hf => (nomatch hf)⟩
  binary op ha hb := (mkBinary_mem op ha.1 hb.1).imp
    fun _ _ _ he => ⟨he, fun _ _ hf => (nomatch hf)⟩
  power ha hb := (mkBinary_mem .pow ha.1 hb.1).imp
    fun _ _ _ he => ⟨he, fun _ _ hf => (nomatch hf)⟩
  call _ ha := (mkUnary_mem _ ha.1).imp fun _ _ _ he => ⟨he, fun _ _ hf => (nomatch hf)⟩

/-- **What is well declared reads well.** -/
theorem WellDeclared.readable [Scalar α] (h : d.WellDeclared) : d.Readable α where
  notEmpty rate hrate e he hproblem := by
    have hblank := parseFormula_empty_iff.mp ⟨e, he, hproblem⟩
    exact Bool.eq_false_iff.mp (h.rates rate hrate) hblank
  names representation hrepresentation rates hrates n := by
    have hsymbols : List.Forall₂ (fun s e => isIdentifier s = true ∧
        (SymbolTable.ofExprs (symbolsFrom n d.names)).lookup s = some e) rates
        (rates.map (symbolOf n d.names) : List (Expr α)) := by
      rw [List.forall₂_map_right_iff, List.forall₂_same]
      exact fun s hs =>
        ⟨h.identifiers s (hrates s hs), lookup_symbolsFrom n h.distinct (hrates s hs)⟩
    obtain ⟨next, hrun⟩ :=
      toModel_of_names (d := { d with rates := rates }) hrepresentation hsymbols
    refine ⟨_, next, hrun, List.forall₂_map_right_iff.mpr (List.forall₂_same.mpr fun s hs => ?_)⟩
    exact standsFor_symbolOf representation n _ h.distinct (hrates s hs)
  alone n next m hrun i s hi hs := by
    have hsteps : ∀ p : Pool α, (∀ e ∈ symbolsFrom n d.names, e ∈ p) →
        Formula.Lowering (SymbolTable.ofExprs (symbolsFrom n d.names)) p _ :=
      fun p hmem => lowering_name fun s e hs =>
        hmem e (SymbolTable.mem_ofExprs.mp (SymbolTable.mem_of_lookup hs)).1
    obtain ⟨after, _, _, hmodel⟩ := @toModel_yields α (Pool.empty n) _ d _ hsteps
    obtain ⟨representation, rates, rfl, _, hrates⟩ := hmodel m (congrArg Prod.fst hrun)
    obtain ⟨e, he, f, hparse, _, hname⟩ := Grid.forall₂_getElem? hrates hi
    -- the rate is parsed as the name, and that is in the table
    obtain rfl := Except.ok.inj ((parseFormula_name (h.identifiers s hs)).symm.trans hparse)
    obtain rfl := hname s _ rfl (lookup_symbolsFrom n h.distinct hs)
    exact ⟨_, he, standsFor_symbolOf representation n rates h.distinct hs⟩

/-- **Validation accepts what is well declared, and refuses everything else for the first rule that
it breaks.** What is accepted reads well. -/
theorem validate_iff_verdict [Scalar α] (d : Declaration) :
    (∀ result, d.validate .plain = result ↔ d.Verdict result) ∧
    (d.validate .plain = .ok () ↔ d.WellDeclared) ∧
    (d.validate .plain = .ok () → d.Readable α) := by
  obtain ⟨verdict, hverdict⟩ := exists_verdict d
  have hvalidate := validate_of_verdict hverdict
  have haccepted : d.validate .plain = .ok () ↔ d.WellDeclared := by
    refine ⟨fun h => ?_, fun h => validate_of_verdict (.accepted h)⟩
    obtain rfl := hvalidate.symm.trans h
    cases hverdict with
    | accepted h => exact h
  refine ⟨fun result => ⟨?_, validate_of_verdict⟩, haccepted, fun h => ?_⟩
  · rintro rfl
    rwa [hvalidate]
  · exact (haccepted.mp h).readable

/-- The declaration of one state, one control and one parameter, and the same with the state
declared once more as a control. With the names themselves for rates there is a model. -/
theorem validate_iff_verdict_driven :
    driven.validate .plain = .ok () ∧
    { driven with u := ["a"] }.validate .plain = .error (.repeatedSymbol "a") ∧
    ∃ (m : Model Float) (next : Nat),
      ({ driven with rates := ["k", "a"] }.toModel : Attempt DescriptionError (Model Float)) 0 =
        (.ok m, next) ∧ List.Forall₂ (driven.StandsFor m) ["k", "a"] m.rate.elements := by
  have hdriven : driven.WellDeclared :=
    ⟨⟨by decide, by decide⟩, by decide, by decide, by decide, by decide⟩
  obtain ⟨_, haccepted, hreadable⟩ := validate_iff_verdict (α := Float) driven
  have hvalid := haccepted.mpr hdriven
  refine ⟨hvalid, ?_, (hreadable hvalid).names .sx (by decide) ["k", "a"] (by decide) 0⟩
  refine ((validate_iff_verdict (α := Float) { driven with u := ["a"] }).1 _).mpr ?_
  have hsplit : { driven with u := ["a"] }.symbols =
      [(.state, "a")] ++ (.control, "a") :: [(.parameter, "k")] := rfl
  exact .repeatedSymbol ⟨by decide, by decide⟩ hsplit ⟨by decide, by decide⟩ (by decide)

end Declaration

end ExplicitOde
