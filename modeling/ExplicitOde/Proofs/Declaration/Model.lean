import ExplicitOde.Declaration.Model
import ExplicitOde.Proofs.Declaration.Validation
import ExplicitOde.Proofs.Document.Reader
import ExplicitOde.Proofs.Formula.Lower
import ExplicitOde.Proofs.Model.Success

/-!
# The models of declarations

The symbols of a declaration have identities that follow each other, in the order in which the
names are declared, and the rates are the expressions of the declared formulas. Such a model fits:
there are as many rates as states, and a rate has no symbols but those of the declared names.
-/

namespace ExplicitOde

open ExplicitOde.Expr

variable {α : Type}

/-! ## Tables of symbols -/

/-- The entries of a table are the symbols among the expressions it was made of, by name. -/
theorem SymbolTable.mem_ofExprs {es : List (Expr α)} {s : String} {e : Expr α} :
    (s, e) ∈ SymbolTable.ofExprs es ↔ e ∈ es ∧ e.symbolName? = some s := by
  rw [ofExprs, List.mem_reverse, List.mem_filterMap]
  constructor
  · rintro ⟨e', he', h⟩
    obtain ⟨s', hs', h⟩ := Option.map_eq_some_iff.mp h
    obtain ⟨rfl, rfl⟩ := Prod.mk.inj h
    exact ⟨he', hs'⟩
  · rintro ⟨he, hs⟩
    exact ⟨e, he, Option.map_eq_some_iff.mpr ⟨s, hs, rfl⟩⟩

/-- What is found in a table is one of its entries. -/
theorem SymbolTable.mem_of_lookup {table : SymbolTable α} {s : String} {e : Expr α}
    (h : table.lookup s = some e) : (s, e) ∈ table := by
  obtain ⟨before, after, rfl, _⟩ := List.lookup_eq_some_iff.mp h
  exact List.mem_append_right before List.mem_cons_self

variable {pool : Pool α}

/-- A column of named symbols takes the next identities. -/
theorem ExprMatrix.namedSymbols_ensures (kind : Kind) (names : List String) :
    pool.Ensures (namedSymbols kind names : Build (ExprMatrix α)) fun after m =>
      m = ExprMatrix.column kind (symbolsFrom pool.next names) ∧
        (∀ e ∈ symbolsFrom pool.next names, e ∈ after) ∧ after.next = pool.next + names.length := by
  have hsymbols : ∀ (names : List String) (pool : Pool α),
      pool.Ensures (names.mapM mkSymbol : Build (List (Expr α))) fun after es =>
        es = symbolsFrom pool.next names ∧ (∀ e ∈ symbolsFrom pool.next names, e ∈ after) ∧
          after.next = pool.next + names.length := by
    intro names
    induction names with
    | nil => exact fun pool => Pool.Ensures.pure ⟨rfl, fun e he => absurd he List.not_mem_nil, rfl⟩
    | cons s names ih =>
        intro pool
        have hnode : ∀ a ∈ (symbol pool.next s : Expr α).operands, a ∈ pool := by simp [operands]
        obtain ⟨after, hle, hnext, hes, hmem, hcount⟩ :=
          ih (pool.grow (symbol pool.next s) rfl hnode)
        rw [List.mapM_cons]
        refine ⟨after, Pool.le_trans (Pool.le_grow _ _) hle, hnext, ?_, ?_, ?_⟩
        · exact congrArg (symbol pool.next s :: ·) hes
        · exact List.forall_mem_cons.mpr ⟨Pool.mem_of_le hle (Pool.mem_grow _ _), hmem⟩
        · rw [hcount, List.length_cons]
          exact Nat.add_right_comm _ _ _
  exact (hsymbols names pool).bind fun _ _ _ ⟨hes, hmem, hcount⟩ =>
    Pool.Ensures.pure ⟨congrArg _ hes, hmem, hcount⟩

namespace Declaration

/-- A model that is declared, where the symbols have identities from a number on. -/
def modelOver (d : Declaration) (representation : Representation) (first : Nat)
    (rates : List (Expr α)) : Model α where
  name := d.name
  x := ExprMatrix.column (.ofRepresentation representation) (symbolsFrom first d.x)
  u := ExprMatrix.column (.ofRepresentation representation) (symbolsFrom (first + d.x.length) d.u)
  p :=
    if d.parameters.isEmpty then .separate []
    else .symbolic (ExprMatrix.column (.ofRepresentation representation)
      (symbolsFrom (first + (d.x.length + d.u.length)) d.parameters))
  rate := ExprMatrix.column (.ofRepresentation representation) rates

/-- The symbols of states, controls and parameters are those of all names in their order. -/
theorem elements_declared (kind : Kind) (d : Declaration) (first : Nat) :
    ([ExprMatrix.column kind (symbolsFrom first d.x),
        ExprMatrix.column kind (symbolsFrom (first + d.x.length) d.u)] ++
      (if d.parameters.isEmpty then none else some (ExprMatrix.column kind
        (symbolsFrom (first + (d.x.length + d.u.length)) d.parameters))).toList).flatMap
          ExprMatrix.elements = (symbolsFrom first d.names : List (Expr α)) := by
  rw [names, symbolsFrom_append, symbolsFrom_append, List.length_append]
  by_cases hempty : d.parameters.isEmpty = true
  · rw [if_pos hempty, List.isEmpty_iff.mp hempty]
    simp [ExprMatrix.column, ExprMatrix.elements, Grid.column, symbolsFrom]
  · rw [if_neg hempty]
    simp [ExprMatrix.column, ExprMatrix.elements, Grid.column]

/-! ## The way to the model -/

/-- Parameters are symbols, if there are any. -/
theorem parameterSymbols_ensures (kind : Kind) (d : Declaration) :
    pool.Ensures (d.parameterSymbols kind : Build (Option (ExprMatrix α))) fun after p =>
      p = (if d.parameters.isEmpty then none
        else some (ExprMatrix.column kind (symbolsFrom pool.next d.parameters))) ∧
        ∀ e ∈ symbolsFrom pool.next d.parameters, e ∈ after := by
  rw [parameterSymbols]
  by_cases hempty : d.parameters.isEmpty = true
  · rw [if_pos hempty, List.isEmpty_iff.mp hempty]
    exact Pool.Ensures.pure ⟨(if_pos rfl).symm, fun e he => absurd he List.not_mem_nil⟩
  · rw [if_neg hempty]
    refine (ExprMatrix.namedSymbols_ensures kind d.parameters).bind fun _ p _ ⟨hp, hmem, _⟩ => ?_
    exact Pool.Ensures.pure ⟨congrArg some hp |>.trans (if_neg hempty).symm, hmem⟩

variable [Scalar α]

/-- The rates are the expressions of formulas. -/
theorem rateExprs_yields {table : SymbolTable α} {post : Pool α → Formula α → Expr α → Prop}
    (h : Formula.Lowering table pool post) : ∀ (rates : List String) (index : Nat) {p : Pool α},
    pool ≤ p → p.Yields (rateExprs table index rates) fun after =>
      List.Forall₂ (fun text e => ∃ f, parseFormula text = .ok f ∧ post after f e) rates := by
  intro rates
  induction rates with
  | nil => exact fun _ _ _ => Pool.Yields.pure .nil
  | cons text rates ih =>
      intro index p hle
      have hone : p.Yields ((parseExpr table text).adapt (DeclarationError.invalidRate index))
          fun after e => ∃ f, parseFormula text = .ok f ∧ post after f e := by
        refine Pool.Yields.adapt _ ?_
        rw [parseExpr]
        cases hparse : (parseFormula text : Except FormulaError (Formula α)) with
        | error => exact Pool.Yields.fail
        | ok f => exact (h.yields f hle).imp fun _ _ _ he => ⟨f, rfl, he⟩
      rw [rateExprs]
      refine hone.bind fun p₁ e hle₁ ⟨f, hparse, he⟩ => ?_
      refine (ih (index + 1) (Pool.le_trans hle hle₁)).bind fun p₂ es hle₂ hes => ?_
      exact Pool.Yields.pure (.cons ⟨f, hparse, h.grow hle₂ he⟩ hes)

/-- **The model of a declaration is over symbols of the declared names, and its rates are the
expressions of the declared formulas.** -/
theorem toModel_yields {d : Declaration} {post : Pool α → Formula α → Expr α → Prop}
    (h : ∀ p : Pool α, (∀ e ∈ symbolsFrom pool.next d.names, e ∈ p) →
      Formula.Lowering (SymbolTable.ofExprs (symbolsFrom pool.next d.names)) p post) :
    pool.Yields (d.toModel : Attempt DescriptionError (Model α)) fun after m =>
      ∃ representation rates, m = d.modelOver representation pool.next rates ∧
        (∀ e ∈ symbolsFrom pool.next d.names, e ∈ after) ∧
        List.Forall₂ (fun text e => ∃ f, parseFormula text = .ok f ∧ post after f e)
          d.rates rates := by
  rw [toModel]
  cases hrepresentation : Representation.ofName? d.representation with
  | none => exact Pool.Yields.fail
  | some representation =>
      dsimp only
      -- states, controls and parameters take their identities one after the other
      refine (Pool.Yields.lift (ExprMatrix.namedSymbols_ensures _ d.x)).bind
        fun p₁ x hle₁ ⟨hx, hxmem, hxnext⟩ => ?_
      refine (Pool.Yields.lift (ExprMatrix.namedSymbols_ensures _ d.u)).bind
        fun p₂ u hle₂ ⟨hu, humem, hunext⟩ => ?_
      refine (Pool.Yields.lift (parameterSymbols_ensures _ d)).bind fun p₃ p hle₃ ⟨hp, hpmem⟩ => ?_
      rw [hunext, hxnext, Nat.add_assoc] at hp hpmem
      rw [hxnext] at hu humem
      have hsymbols : ([x, u] ++ p.toList).flatMap ExprMatrix.elements =
          symbolsFrom pool.next d.names := by
        rw [hx, hu, hp, elements_declared]
      have hmem : ∀ e ∈ symbolsFrom pool.next d.names, e ∈ p₃ := by
        rw [names, symbolsFrom_append, symbolsFrom_append, List.length_append]
        refine List.forall_mem_append.mpr ⟨List.forall_mem_append.mpr ⟨?_, ?_⟩, hpmem⟩
        · exact fun e he => Pool.mem_of_le (Pool.le_trans hle₂ hle₃) (hxmem e he)
        · exact fun e he => Pool.mem_of_le hle₃ (humem e he)
      rw [hsymbols]
      refine ((rateExprs_yields (h p₃ hmem) d.rates 0 (Pool.le_refl p₃)).adapt _).bind
        fun p₄ rates hle₄ hrates => ?_
      refine Pool.Yields.pure
        ⟨representation, rates, ?_, fun e he => Pool.mem_of_le hle₄ (hmem e he),
        hrates⟩
      rw [modelOver, hx, hu, hp]
      by_cases hempty : d.parameters.isEmpty = true
      · rw [if_pos hempty, if_pos hempty]
      · rw [if_neg hempty, if_neg hempty]

/-! ## The model fits -/

open SymbolicFunction

omit [Scalar α] in
/-- States, controls and parameters are the symbols of all names. -/
theorem inputElements_modelOver (d : Declaration) (representation : Representation) (first : Nat)
    (rates : List (Expr α)) :
    inputElements [(d.modelOver representation first rates).x,
      (d.modelOver representation first rates).u,
      (d.modelOver representation first rates).parameters] = symbolsFrom first d.names := by
  rw [names, symbolsFrom_append, symbolsFrom_append, List.length_append]
  by_cases hempty : d.parameters.isEmpty = true
  · simp [modelOver, Model.parameters, List.isEmpty_iff.mp hempty, inputElements,
      ExprMatrix.elements, ExprMatrix.column, Grid.column, symbolsFrom]
  · simp [modelOver, Model.parameters, hempty, inputElements, ExprMatrix.elements,
      ExprMatrix.column, Grid.column]

omit [Scalar α] in
/-- There are as many parameters as are declared. -/
theorem numel_parameters_modelOver (d : Declaration) (representation : Representation) (first : Nat)
    (rates : List (Expr α)) :
    (d.modelOver representation first rates).parameters.numel = d.parameters.length := by
  by_cases hempty : d.parameters.isEmpty = true
  · simp [modelOver, Model.parameters, List.isEmpty_iff.mp hempty, ExprMatrix.numel,
      ExprMatrix.column, Grid.column, Grid.numel]
  · simp [modelOver, Model.parameters, hempty, ExprMatrix.numel, ExprMatrix.column, Grid.column,
      Grid.numel, length_symbolsFrom]

omit [Scalar α] in
/-- A column of expressions over certain symbols. -/
theorem column_proper {kind : Kind} {P : Nat → Prop} {es : List (Expr α)} {n : Nat}
    (hn : es.length = n) (h : ∀ e ∈ es, e.Over P) :
    (ExprMatrix.column kind es).Proper kind P n 1 where
  kind := Or.inl rfl
  shape := Prod.ext hn rfl
  full := (Nat.mul_one _).symm
  isOver := h

omit [Scalar α] in
/-- **A declared model fits**, if there are as many rates as states and these are over the declared
symbols. -/
theorem modelOver_wellPosed {d : Declaration} {representation : Representation} {first next : Nat}
    {rates : List (Expr α)} (hname : isIdentifier d.name = true)
    (hcount : rates.length = d.x.length)
    (hover : ∀ e ∈ rates, e.Over (· ∈ (symbolsFrom first d.names : List (Expr α)).map Expr.id))
    (hold : ∀ e ∈ (symbolsFrom first d.names : List (Expr α)), e.id < next) :
    (d.modelOver representation first rates).WellPosed representation d.x.length d.u.length
      next := by
  have hinputs := inputElements_modelOver d representation first rates
  have hsymbols : ∀ (n : Nat) (names : List String),
      (∀ e ∈ (symbolsFrom n names : List (Expr α)), e ∈ (symbolsFrom first d.names)) →
      ∀ e ∈ (symbolsFrom n names : List (Expr α)),
        e.Over (d.modelOver representation first rates).IsInput := by
    intro n names hmem
    refine over_of_symbols (isSymbol_symbolsFrom n names) fun i hi => ?_
    rw [Model.IsInput, hinputs]
    obtain ⟨e, he, rfl⟩ := List.mem_map.mp hi
    exact List.mem_map_of_mem (hmem e he)
  refine ⟨hname, rfl, ?_, ?_, ?_, ?_, ?_, ?_, ?_, ?_⟩
  -- states, controls and rates are columns over the symbols
  · refine column_proper (length_symbolsFrom _ _) (hsymbols _ _ fun e he => ?_)
    rw [names, symbolsFrom_append, symbolsFrom_append]
    exact List.mem_append_left _ (List.mem_append_left _ he)
  · refine column_proper (length_symbolsFrom _ _) (hsymbols _ _ fun e he => ?_)
    rw [names, symbolsFrom_append, symbolsFrom_append]
    exact List.mem_append_left _ (List.mem_append_right _ he)
  · refine column_proper hcount fun e he => ?_
    unfold Model.IsInput
    rw [hinputs]
    exact hover e he
  -- without parameters the model has an empty numeric matrix in their place
  · by_cases hempty : d.parameters.isEmpty = true
    · simp [modelOver, Model.parameters, hempty]
    · simp [modelOver, Model.parameters, hempty, ExprMatrix.column]
  · by_cases hempty : d.parameters.isEmpty = true
    · simp [modelOver, hempty]
    · simp [modelOver, Model.parameters, hempty]
  · rw [hinputs]
    exact isSymbol_symbolsFrom _ _
  · rw [hinputs, id_symbolsFrom]
    exact List.nodup_range'
  · intro i hi
    rw [Model.IsInput, hinputs] at hi
    obtain ⟨e, he, rfl⟩ := List.mem_map.mp hi
    exact hold e he

omit [Scalar α] in
theorem ofValidText_ok {text : String} {d : Declaration} (h : ofValidText text = .ok d) :
    isIdentifier d.name = true ∧ d.names.Nodup ∧ d.rates.length = d.x.length := by
  obtain ⟨d', _, h⟩ := bind_eq_ok_iff.mp h
  obtain ⟨_, hvalid, h⟩ := bind_eq_ok_iff.mp h
  injection h with h
  exact h ▸ validate_ok hvalid

/-- Rates are over the symbols of the declared names. -/
theorem lowering_names (first : Nat) (names : List String) {p : Pool α}
    (hmem : ∀ e ∈ symbolsFrom first names, e ∈ p) :
    Formula.Lowering (SymbolTable.ofExprs (symbolsFrom first names)) p fun after _ e =>
      e ∈ after ∧ e.Over (· ∈ (symbolsFrom first names : List (Expr α)).map Expr.id) := by
  refine Formula.lowering_over fun s e hs => ?_
  have he := (SymbolTable.mem_ofExprs.mp (SymbolTable.mem_of_lookup hs)).1
  exact ⟨hmem e he,
    over_of_symbols (isSymbol_symbolsFrom first names) (fun _ hi => hi) e he⟩

/-- The model that a text declares is the model of the declaration that it spells. -/
theorem modelOfText_ok {text : String} {n next : Nat} {m : Model α}
    (h : (modelOfText text : Attempt DescriptionError (Model α)) n = (.ok m, next)) :
    ∃ d, ofValidText text = .ok d ∧
      (d.toModel : Attempt DescriptionError (Model α)) n = (.ok m, next) := by
  rw [modelOfText] at h
  cases hd : ofValidText text with
  | error cause =>
      rw [hd] at h
      injection h with h
      injection h
  | ok d =>
      rw [hd] at h
      exact ⟨d, rfl, h⟩

/-- **The model of a valid declaration fits.** -/
theorem toModel_wellPosed {d : Declaration} (hname : isIdentifier d.name = true)
    (hcount : d.rates.length = d.x.length) :
    pool.Yields (d.toModel : Attempt DescriptionError (Model α)) fun after m =>
      ∃ representation rates, m = d.modelOver representation pool.next rates ∧
        m.WellPosed representation d.x.length d.u.length after.next ∧ ∀ e ∈ rates, e ∈ after := by
  refine (toModel_yields fun p hmem => lowering_names pool.next d.names hmem).imp
    fun after m _ ⟨representation, rates, hm, hmem, hrates⟩ => ?_
  have hall : ∀ e ∈ rates, e ∈ after ∧
      e.Over (· ∈ (symbolsFrom pool.next d.names : List (Expr α)).map Expr.id) := by
    intro e he
    obtain ⟨_, _, _, _, hpost⟩ := Grid.exists_of_mem_forall₂ hrates he
    exact hpost
  subst hm
  refine ⟨representation, rates, rfl, ?_, fun e he => (hall e he).1⟩
  exact modelOver_wellPosed hname (hrates.length_eq.symm.trans hcount) (fun e he => (hall e he).2)
    fun e he => after.id_lt e (hmem e he)

/-- A text that declares a model spells a valid declaration, and the model fits. -/
theorem modelOfText_fits {text : String} {n next : Nat} {m : Model α}
    (h : (modelOfText text : Attempt DescriptionError (Model α)) n = (.ok m, next)) :
    ∃ d, ofValidText text = .ok d ∧
      (d.toModel : Attempt DescriptionError (Model α)) n = (.ok m, next) ∧
      ∃ representation rates, m = d.modelOver representation n rates ∧
        m.WellPosed representation d.x.length d.u.length next ∧
        ∃ pool : Pool α, ∀ e ∈ rates, e ∈ pool := by
  obtain ⟨d, hd, hmodel⟩ := modelOfText_ok h
  obtain ⟨hname, _, hcount⟩ := ofValidText_ok hd
  obtain ⟨after, _, hnext, hfits⟩ :=
    @toModel_wellPosed α (Pool.empty n) _ d hname hcount
  obtain ⟨representation, rates, hm, hwellPosed, hpool⟩ := hfits m (congrArg Prod.fst hmodel)
  rw [hnext.trans (congrArg Prod.snd hmodel)] at hwellPosed
  exact ⟨d, hd, hmodel, representation, rates, hm, hwellPosed, after, hpool⟩

/-! A declaration of one state, one control and one parameter. -/

/-- The text of the declaration. -/
def drivenText : String :=
  "\x7b\"schema\":\"1.0\",\"name\":\"driven\",\"x\":[\"a\"],\"u\":[\"w\"],\"p\":[\"k\"]," ++
    "\"f_expl\":[\"w-k*a\"]\x7d"

/-- The declaration that is spelt. -/
def driven : Declaration where
  schema := "1.0"
  name := "driven"
  representation := "SX"
  description := none
  x := ["a"]
  u := ["w"]
  p := some ["k"]
  rates := ["w-k*a"]

open Document in
theorem reads_drivenText :
    Reads (Document.record [("schema", text "1.0"), ("name", text "driven"),
      ("x", Document.list [text "a"]), ("u", Document.list [text "w"]),
      ("p", Document.list [text "k"]), ("f_expl", Document.list [text "w-k*a"])])
      drivenText.toList [] := by
  unfold drivenText
  simp only [String.reduceAppend, String.reduceToList]
  refine .keyed rfl rfl ?_
  refine .more (.string rfl rfl) rfl (.string rfl rfl) rfl ?_
  refine .more (.string rfl rfl) rfl (.string rfl rfl) rfl ?_
  refine .more (.string rfl rfl) rfl (.singleton rfl rfl) rfl ?_
  refine .more (.string rfl rfl) rfl (.singleton rfl rfl) rfl ?_
  refine .more (.string rfl rfl) rfl (.singleton rfl rfl) rfl ?_
  exact .last (.string rfl rfl) rfl (.singleton rfl rfl) rfl

theorem ofValidText_driven : ofValidText drivenText = .ok driven := by
  have hread := reads_drivenText
  have htext : ofText drivenText = .ok driven := by
    rw [ofText, Document.decodeText, Document.read, hread.value, hread.rest]
    rfl
  rw [ofValidText, htext]
  rfl

theorem parseFormula_driven : (parseFormula "w-k*a" : Except FormulaError (Formula α)) =
    .ok (.binary .sub (.name "w") (.binary .mul (.name "k") (.name "a"))) := by
  cbv

/-- The model of the declaration. The identities of the symbols are 0, 1 and 2, and two nodes are
built for the rate. -/
def drivenModel (α : Type) : Model α :=
  driven.modelOver .sx 0
    [binary 4 .sub (symbol 1 "w") (binary 3 .mul (symbol 2 "k") (symbol 0 "a"))]

theorem modelOfText_driven :
    (modelOfText drivenText : Attempt DescriptionError (Model α)) 0 = (.ok (drivenModel α), 5) := by
  rw [modelOfText, ofValidText_driven]
  dsimp only
  rw [toModel]
  dsimp only [driven]
  unfold rateExprs parseExpr
  simp only [parseFormula_driven]
  rfl

omit [Scalar α] in
theorem drivenModel_wellPosed : (drivenModel α).WellPosed .sx 1 1 5 := by
  refine modelOver_wellPosed (by decide) rfl (List.forall_mem_singleton.mpr ?_) fun e he => ?_
  · simp [Over, id_symbolsFrom, driven, names, parameters, List.mem_range']
  · have hid : e.id ∈ [0, 1, 2] := List.mem_map_of_mem he
    simp only [List.mem_cons, List.not_mem_nil, or_false] at hid
    omega

end Declaration

end ExplicitOde
