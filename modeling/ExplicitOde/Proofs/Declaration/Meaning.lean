import ExplicitOde.Proofs.Declaration.Model
import ExplicitOde.Proofs.Formula.Meaning
import ExplicitOde.Proofs.Function.Exact

/-!
# What declared models compute

The value of a declared model is what the declared formulas say, read by themselves: the names of
states, controls and parameters have the given values, one after the other.
-/

namespace ExplicitOde

open ExplicitOde.Expr SymbolicFunction

variable {α : Type} [ExactScalar α]

namespace Model

/-- The function for the value of a model gives the values of the rates. -/
theorem Typed.exactCall {m : Model α} {kind : Kind} {nx nu : Nat}
    {s : Sensitivities (SymbolicFunction α)} (h : m.Typed kind nx nu s) {pool : Pool α}
    (hpool : ∀ e ∈ m.rate.elements, e ∈ pool) {σ : Nat → ℝ} {x u p : Grid ℝ}
    (hx : m.x.numel = x.numel) (hu : m.u.numel = u.numel) (hp : m.parameters.numel = p.numel)
    (hσ : (inputElements [m.x, m.u, m.parameters]).map (fun e => σ e.id) =
      x.cells ++ u.cells ++ p.cells) :
    s.value.call Interpretation.exact ([x, u, p].map (Grid.map some)) =
      .ok [m.rate.grid.map (Expr.exactValue σ)] := by
  obtain ⟨parameters, _, _, _, hgrid, hinputs⟩ := h.inputs
  have hinputs : s.value.inputs = [m.x, m.u, parameters] := hinputs .value
  have hgives : List.Forall₂ (Gives σ) s.value.inputs [x, u, p] := by
    rw [hinputs]
    refine gives_of_values (.cons hx (.cons hu (.cons ?_ .nil))) ?_
    · rw [← hp, ExprMatrix.numel, ExprMatrix.numel, hgrid]
    · simpa [inputElements, ExprMatrix.elements, hgrid] using hσ
  have houtputs : ∀ e ∈ outputElements s.value.outputs, e ∈ pool := by
    rw [h.rates]
    simpa [outputElements] using hpool
  rw [call_exact_of_gives houtputs (h.accepted .value) hgives, h.rates]
  rfl

end Model

namespace Declaration

/-- The values of names where the declared names have given values, one after the other. -/
def environment (d : Declaration) (values : List ℝ) (name : String) : Option ℝ :=
  (d.names.zip values).lookup name

/-- What is in a list without repeated keys is found in it. -/
theorem lookup_eq_some_of_mem {β : Type} {s : String} {v : β} : ∀ {entries : List (String × β)},
    (entries.map Prod.fst).Nodup → (s, v) ∈ entries → entries.lookup s = some v := by
  intro entries
  induction entries with
  | nil => exact fun _ h => absurd h List.not_mem_nil
  | cons entry entries ih =>
      intro hnodup hmem
      obtain ⟨s', v'⟩ := entry
      rw [List.map_cons, List.nodup_cons] at hnodup
      rcases List.mem_cons.mp hmem with heq | hmem
      · obtain ⟨rfl, rfl⟩ := Prod.mk.inj heq
        rw [List.lookup_cons, beq_self_eq_true]
      · have hne : s ≠ s' := fun h => hnodup.1 (h ▸ List.mem_map.mpr ⟨(s, v), hmem, rfl⟩)
        rw [List.lookup_cons, beq_false_of_ne hne]
        exact ih hnodup.2 hmem

/-- The value of a declared name is at its place. -/
theorem environment_eq {d : Declaration} {values : List ℝ} (hnodup : d.names.Nodup)
    (hlength : d.names.length ≤ values.length) {k : Nat} {s : String} {v : ℝ}
    (hs : d.names[k]? = some s) (hv : values[k]? = some v) : d.environment values s = some v := by
  refine lookup_eq_some_of_mem ?_ (List.mem_of_getElem? (i := k) ?_)
  · rwa [List.map_fst_zip hlength]
  · rw [List.getElem?_zip_eq_some]
    exact ⟨hs, hv⟩

/-- A declared name has the value of its symbol. -/
theorem environment_of_mem {d : Declaration} {first : Nat} {values : List ℝ} {σ : Nat → ℝ}
    (hnodup : d.names.Nodup)
    (hσ : (symbolsFrom first d.names : List (Expr α)).map (fun e => σ e.id) = values) {s : String}
    {e : Expr α} (he : e ∈ symbolsFrom first d.names) (hs : e.symbolName? = some s) :
    d.environment values s = some (σ e.id) ∧ e.exactValue σ = some (σ e.id) := by
  have hvalue : e.exactValue σ = some (σ e.id) := by
    cases e with
    | symbol => rfl
    | const | unary | binary => exact absurd hs (by simp [symbolName?])
  refine ⟨?_, hvalue⟩
  obtain ⟨k, hk⟩ := List.getElem?_of_mem he
  have hname : d.names[k]? = some s := by
    have hnames := congrArg (·[k]?) (symbolName?_symbolsFrom (α := α) first d.names)
    simp only [List.getElem?_map, hk, Option.map_some, hs] at hnames
    obtain ⟨s', hs', heq⟩ := Option.map_eq_some_iff.mp hnames.symm
    injection heq with heq
    rw [hs', heq]
  have hv : values[k]? = some (σ e.id) := by
    rw [← hσ, List.getElem?_map, hk]
    rfl
  refine environment_eq hnodup (le_of_eq ?_) hname hv
  rw [← hσ, List.length_map, length_symbolsFrom]

omit [ExactScalar α] in
/-- A name that is in no table of the declared symbols has no value. -/
theorem environment_of_lookup_eq_none {d : Declaration} {first : Nat} {values : List ℝ} {s : String}
    (h : (SymbolTable.ofExprs (symbolsFrom first d.names : List (Expr α))).lookup s = none) :
    d.environment values s = none := by
  refine List.lookup_eq_none_iff.mpr fun entry hentry => ?_
  have hname : entry.1 ∈ d.names := (List.of_mem_zip hentry).1
  have hsome : some entry.1 ∈ (symbolsFrom first d.names : List (Expr α)).map Expr.symbolName? := by
    rw [symbolName?_symbolsFrom]
    exact List.mem_map_of_mem hname
  obtain ⟨e, he, hs⟩ := List.mem_map.mp hsome
  exact List.lookup_eq_none_iff.mp h (entry.1, e) (SymbolTable.mem_ofExprs.mpr ⟨he, hs⟩)

/-- **The rates of a declared model have the values of the declared formulas.** -/
theorem toModel_rates {d : Declaration} {n next : Nat} {m : Model α} (hnodup : d.names.Nodup)
    (hrun : (d.toModel : Attempt DescriptionError (Model α)) n = (.ok m, next)) {σ : Nat → ℝ}
    {values : List ℝ}
    (hσ : (symbolsFrom n d.names : List (Expr α)).map (fun e => σ e.id) = values) :
    List.Forall₂ (fun text e => ∃ f : Formula α, parseFormula text = .ok f ∧
      ∀ v, f.exactValue (d.environment values) = some v → e.exactValue σ = some v)
      d.rates m.rate.elements := by
  -- the names in the table and the names that have values are the same
  have hsteps : ∀ p : Pool α, (∀ e ∈ symbolsFrom n d.names, e ∈ p) →
      Formula.Lowering (SymbolTable.ofExprs (symbolsFrom n d.names)) p
        (Formula.Means (d.environment values) σ) := by
    refine fun p hmem => Formula.lowering_means (fun s e hs => ?_) environment_of_lookup_eq_none
    obtain ⟨he, hname⟩ := SymbolTable.mem_ofExprs.mp (SymbolTable.mem_of_lookup hs)
    exact ⟨hmem e he, _, environment_of_mem hnodup hσ he hname⟩
  obtain ⟨after, _, _, hmodel⟩ := @toModel_yields α (Pool.empty n) _ _ _ hsteps
  obtain ⟨representation, rates, rfl, _, hrates⟩ := hmodel m (congrArg Prod.fst hrun)
  exact hrates.imp fun _ _ ⟨f, hparse, hmeans⟩ => ⟨f, hparse, hmeans.2⟩

/-- Every declared formula is parsed, if there is something for each of them. -/
theorem exists_formulas {rates : List String} {es : List (Expr α)}
    {post : Formula α → Expr α → Prop}
    (h : List.Forall₂ (fun text e => ∃ f, parseFormula text = .ok f ∧ post f e) rates es) :
    ∃ formulas : List (Formula α),
      List.Forall₂ (fun text f => parseFormula text = .ok f) rates formulas := by
  induction h with
  | nil => exact ⟨[], .nil⟩
  | cons hone _ ih =>
      obtain ⟨f, hparse, _⟩ := hone
      obtain ⟨formulas, hformulas⟩ := ih
      exact ⟨f :: formulas, .cons hparse hformulas⟩

/-- What there is for each of the formulas is so for the formula at a place. -/
theorem exists_of_getElem? {rates : List String} {formulas : List (Formula α)} {es : List (Expr α)}
    {post : Formula α → Expr α → Prop}
    (hformulas : List.Forall₂ (fun text f => parseFormula text = .ok f) rates formulas)
    (h : List.Forall₂ (fun text e => ∃ f, parseFormula text = .ok f ∧ post f e) rates es)
    {i : Nat} {f : Formula α} (hf : formulas[i]? = some f) : ∃ e, es[i]? = some e ∧ post f e := by
  induction hformulas generalizing es i with
  | nil => exact absurd hf (by simp)
  | cons hparse _ ih =>
      cases h with
      | cons hone hrest =>
          cases i with
          | zero =>
              obtain ⟨f', hparse', hpost⟩ := hone
              obtain rfl : f' = _ := Except.ok.inj (hparse'.symm.trans hparse)
              obtain rfl := Option.some.inj hf
              exact ⟨_, rfl, hpost⟩
          | succ i => exact ih hrest hf

/-- **The value of a declared model is what its formulas say.** Whatever text declares it, the entry
of a rate is the value of the formula that the text of the rate spells, wherever that is defined. -/
theorem value_call {text : String} {n next : Nat} {m : Model α}
    {s : Sensitivities (SymbolicFunction α)}
    (hm : (modelOfText text : Attempt DescriptionError (Model α)) n = (.ok m, next))
    (hs : (m.sensitivities next).1 = .ok s) :
    ∃ d, ofValidText text = .ok d ∧ s.value.name = d.name ++ "_expl_ode_fun" ∧
      ∃ formulas : List (Formula α),
        List.Forall₂ (fun rate f => parseFormula rate = .ok f) d.rates formulas ∧
        ∀ x u p : Grid ℝ, x.cells.length = d.x.length → u.cells.length = d.u.length →
          p.cells.length = d.parameters.length →
          ∃ out, s.value.call Interpretation.exact ([x, u, p].map (Grid.map some)) = .ok [out] ∧
            out.shape = (d.x.length, 1) ∧
            ∀ (i : Nat) (f : Formula α), formulas[i]? = some f → ∀ v,
              f.exactValue (d.environment (x.cells ++ u.cells ++ p.cells)) = some v →
              out.cells[i]? = some (some v) := by
  obtain ⟨d, hd, hmodel, declared, rates, rfl, hwellPosed, pool, hpool⟩ := modelOfText_fits hm
  obtain ⟨_, hnodup, _⟩ := ofValidText_ok hd
  obtain ⟨s', hs', htyped⟩ := hwellPosed.exists_typed
  obtain rfl : s' = s := Except.ok.inj (hs'.symm.trans hs)
  have hinputs := inputElements_modelOver d declared n rates
  -- the formulas are the same whatever values the symbols have
  obtain ⟨formulas, hformulas⟩ :=
    exists_formulas (toModel_rates hnodup hmodel (σ := fun _ => 0) rfl)
  refine ⟨d, hd, (htyped.names .value).trans (String.append_assoc ..), formulas, hformulas,
    fun x u p hx hu hp => ?_⟩
  have hcount : (inputElements [(d.modelOver declared n rates).x, (d.modelOver declared n rates).u,
      (d.modelOver declared n rates).parameters]).length =
        (x.cells ++ u.cells ++ p.cells).length := by
    rw [hinputs, length_symbolsFrom]
    simp [names, hx, hu, hp]
  obtain ⟨σ, hσ⟩ := exists_values hwellPosed.distinct hcount
  refine ⟨_, htyped.exactCall hpool ?_ ?_ ?_ hσ, hwellPosed.rates.shape, fun i f hf v hv => ?_⟩
  · exact (length_symbolsFrom _ _).trans hx.symm
  · exact (length_symbolsFrom _ _).trans hu.symm
  · exact (numel_parameters_modelOver d declared n rates).trans hp.symm
  · rw [hinputs] at hσ
    obtain ⟨e, he, hvalue⟩ :=
      exists_of_getElem? hformulas (toModel_rates hnodup hmodel hσ) hf
    exact List.getElem?_map.trans (he ▸ congrArg some (hvalue v hv))

/-- The model of one state, one control and one parameter at `a = 2`, `w = 5` and `k = 3`. -/
theorem value_call_driven :
    ∃ s, ((drivenModel ℚ).sensitivities 5).1 = .ok s ∧
      ∃ out : Grid (Option ℝ), s.value.call Interpretation.exact
          ([Grid.column [2], Grid.column [5], Grid.column [3]].map (Grid.map some)) = .ok [out] ∧
        out.shape = (1, 1) ∧ out.cells[0]? = some (some (-1 : ℝ)) := by
  obtain ⟨s, hs⟩ := (drivenModel_wellPosed (α := ℚ)).sensitivities
  obtain ⟨d, hd, _, formulas, hformulas, hcall⟩ := value_call modelOfText_driven hs
  obtain rfl : driven = d := Except.ok.inj (ofValidText_driven.symm.trans hd)
  obtain ⟨out, hout, hshape, hvalue⟩ :=
    hcall (Grid.column [2]) (Grid.column [5]) (Grid.column [3]) rfl rfl rfl
  refine ⟨s, hs, out, hout, hshape, ?_⟩
  obtain ⟨f, hparse, rfl⟩ : ∃ f, parseFormula "w-k*a" = .ok f ∧ formulas = [f] := by
    cases hformulas with
    | cons hparse hrest =>
        cases hrest
        exact ⟨_, hparse, rfl⟩
  obtain rfl := Except.ok.inj (parseFormula_driven.symm.trans hparse)
  refine hvalue 0 _ rfl (-1) ?_
  have hw : driven.environment [2, 5, 3] "w" = some 5 :=
    environment_eq (k := 1) (by decide) (by decide) rfl rfl
  have hk : driven.environment [2, 5, 3] "k" = some 3 :=
    environment_eq (k := 2) (by decide) (by decide) rfl rfl
  have ha : driven.environment [2, 5, 3] "a" = some 2 :=
    environment_eq (k := 0) (by decide) (by decide) rfl rfl
  change (Formula.binary _ _ _).exactValue (driven.environment [2, 5, 3]) = _
  simp only [Formula.exactValue, hw, hk, ha, signValue?, Option.bind_some]
  norm_num

end Declaration

end ExplicitOde
