import ExplicitOde.Proofs.Declaration.Model
import ExplicitOde.Proofs.Formula.Renaming
import ExplicitOde.Proofs.Formula.Scan
import ExplicitOde.Proofs.Model.Lockstep

/-!
# Declarations under other names

The declared names of a declaration are replaced by others, in the lists and in the rates. If the
new names are distinct identifiers, and none of them is a name that the rates use without a
declaration, the renamed declaration is valid whenever the old one is, and **the models of both are
alike**, wherever the identities of their symbols start.
-/

namespace ExplicitOde

open Relator (BiUnique)
open ExplicitOde.Expr

variable {α : Type} {ρ : Nat → Nat → Prop}

/-! ## Tables of symbols -/

/-- Where keys match alike on both sides, what is found is related. -/
theorem rel_lookup {β γ : Type} {R : β → γ → Prop} {s t : String} {entries : List (String × β)}
    {entries' : List (String × γ)}
    (h : List.Forall₂ (fun p p' => (s = p.1 ↔ t = p'.1) ∧ R p.2 p'.2) entries entries') :
    Option.Rel R (entries.lookup s) (entries'.lookup t) := by
  induction h with
  | nil => exact .none
  | @cons p p' _ _ hp _ ih =>
      rw [List.lookup_cons, List.lookup_cons]
      by_cases hs : s = p.1
      · rw [beq_iff_eq.mpr hs, beq_iff_eq.mpr (hp.1.mp hs)]
        exact .some hp.2
      · rw [beq_false_of_ne hs, beq_false_of_ne fun ht => hs (hp.1.mpr ht)]
        exact ih

/-- A table of symbols has an entry for each of them. -/
theorem SymbolTable.ofExprs_eq {es : List (Expr α)} {names : List String}
    (h : es.map Expr.symbolName? = names.map some) :
    SymbolTable.ofExprs es = (names.zip es).reverse := by
  rw [ofExprs]
  refine congrArg List.reverse ?_
  induction es generalizing names with
  | nil => rw [List.zip_nil_right, List.filterMap_nil]
  | cons e es ih =>
      cases names with
      | nil => cases h
      | cons s names =>
          obtain ⟨he, hes⟩ := List.cons.inj h
          rw [List.filterMap_cons, he, List.zip_cons_cons, ← ih hes]
          rfl

/-- A name in a table and another in a table under other names, if they are told apart alike. -/
theorem namesAlike_of_renamed {es es' : List (Expr α)} {names : List String} {r : String → String}
    (hes : List.Forall₂ (Expr.Alike ρ) es es') (hnames : es.map Expr.symbolName? = names.map some)
    (hnames' : es'.map Expr.symbolName? = (names.map r).map some) {s t : String}
    (hkey : ∀ a ∈ names, s = a ↔ t = r a) (hunknown : s ∉ names → t = s) :
    NamesAlike ρ (SymbolTable.ofExprs es) (SymbolTable.ofExprs es') s t := by
  have hkeys : List.Forall₂ (fun a a' => s = a ↔ t = a') names (names.map r) :=
    List.forall₂_map_right_iff.mpr (List.forall₂_same.mpr hkey)
  have hentry := rel_lookup (List.rel_reverse (forall₂_zip_zip hkeys hes))
  rw [← SymbolTable.ofExprs_eq hnames, ← SymbolTable.ofExprs_eq hnames'] at hentry
  cases hfound : (SymbolTable.ofExprs es).lookup s with
  | some e =>
      rw [hfound] at hentry
      obtain ⟨e', hfound', he⟩ : ∃ e', (SymbolTable.ofExprs es').lookup t = some e' ∧
          e.Alike ρ e' := by
        generalize (SymbolTable.ofExprs es').lookup t = o at hentry
        cases hentry with
        | some he => exact ⟨_, rfl, he⟩
      exact .found hfound hfound' he
  | none =>
      rw [hfound] at hentry
      have hfound' : (SymbolTable.ofExprs es').lookup t = none := by
        generalize (SymbolTable.ofExprs es').lookup t = o at hentry
        cases hentry
        rfl
      refine .unknown hfound hfound' (hunknown fun hs => ?_)
      -- a declared name is in the table
      obtain ⟨e, he, hname⟩ := List.mem_map.mp (hnames ▸ List.mem_map_of_mem hs)
      have hentry' := SymbolTable.mem_ofExprs.mpr ⟨he, hname⟩
      exact absurd (List.lookup_eq_none_iff.mp hfound _ hentry') (by simp)

namespace Declaration

/-! ## Other names -/

/-- What becomes of a name in a rate: declared names are replaced. -/
def newName (d : Declaration) (r : String → String) (s : String) : String :=
  if s ∈ d.names then r s else s

variable (α) in
/-- The declared names may be replaced by these. -/
structure Renaming [Scalar α] (d : Declaration) (r : String → String) : Prop where
  injective : Set.InjOn r {s | s ∈ d.names}
  identifiers : ∀ s ∈ d.names, isIdentifier (r s) = true
  /-- No new name is one that a rate uses without a declaration. -/
  avoids : ∀ text ∈ d.rates, ∀ f : Formula α, parseFormula text = .ok f →
    ∀ t ∈ f.names, t ∉ d.names → ∀ s ∈ d.names, r s ≠ t

variable (α) in
/-- The declaration with other names. The texts of the rates may differ in other ways too, as long
as they spell the formulas under the new names. -/
structure Renamed [Scalar α] (d : Declaration) (r : String → String) (d' : Declaration) :
    Prop where
  name : d'.name = d.name
  representation : d'.representation = d.representation
  x : d'.x = d.x.map r
  u : d'.u = d.u.map r
  parameters : d'.parameters = d.parameters.map r
  rates : List.Forall₂ (fun text text' => ∃ f : Formula α, parseFormula text = .ok f ∧
    parseFormula text' = .ok (f.rename (d.newName r))) d.rates d'.rates

variable [Scalar α] {d d' : Declaration} {r : String → String}

theorem Renamed.names_eq (h : d.Renamed α r d') : d'.names = d.names.map r := by
  rw [names, names, h.x, h.u, h.parameters, List.map_append, List.map_append]

/-- New names are told apart as the old ones are. -/
theorem Renaming.eq_iff (hr : d.Renaming α r) {text : String} (htext : text ∈ d.rates)
    {f : Formula α} (hf : parseFormula text = .ok f) {s : String} (hs : s ∈ f.names) {a : String}
    (ha : a ∈ d.names) : s = a ↔ d.newName r s = r a := by
  rw [newName]
  by_cases hdeclared : s ∈ d.names
  · rw [if_pos hdeclared]
    exact (hr.injective.eq_iff hdeclared ha).symm
  · rw [if_neg hdeclared]
    refine iff_of_false (fun h => hdeclared (h ▸ ha)) fun h => ?_
    exact hr.avoids text htext f hf s hs hdeclared a ha h.symm

/-! ## Validity -/

/-- A text that spells a formula is not blank. -/
theorem allBlank_eq_false_of_parse {text : String} {f : Formula α}
    (h : parseFormula text = .ok f) : allBlank text = false := by
  by_contra hblank
  have hall : ∀ c ∈ text.toList, isBlank c = true :=
    List.all_eq_true.mp (Bool.eq_true_of_not_eq_false hblank)
  obtain ⟨placed, hscan, htokens⟩ := scans_blanks (α := α) hall 0
  obtain rfl := List.map_eq_nil_iff.mp htokens
  rw [parseFormula, tokenize, hscan] at h
  cases h

/-- **Under other names a valid declaration stays valid.** -/
theorem Renamed.validate (h : d.Renamed α r d') (hr : d.Renaming α r)
    (hvalid : d.validate .plain = .ok ()) : d'.validate .plain = .ok () := by
  obtain ⟨hname, hstates, hsymbols, hrates, _⟩ := validate_eq_ok_iff.mp hvalid
  have hdistinct := (checkSymbols_eq_ok_iff.mp hsymbols).2
  rw [snd_symbols] at hdistinct
  refine validate_eq_ok_iff.mpr ⟨h.name ▸ hname, ?_, ?_, ?_, fun hstrict => nomatch hstrict⟩
  · rw [h.x]
    exact fun hempty => hstates (List.map_eq_nil_iff.mp hempty)
  · rw [checkSymbols_eq_ok_iff, snd_symbols, h.names_eq]
    refine ⟨fun t ht => ?_, hdistinct.map_on fun a ha b hb hab => hr.injective ha hb hab⟩
    obtain ⟨s, hs, rfl⟩ := List.mem_map.mp ht
    exact ⟨hr.identifiers s hs, List.not_mem_nil⟩
  · refine checkRates_eq_ok_iff.mpr ⟨?_, fun rate' hrate' => ?_⟩
    · rw [← h.rates.length_eq, (checkRates_eq_ok_iff.mp hrates).1, h.x, List.length_map]
    · obtain ⟨_, _, _, _, hparse⟩ := Grid.exists_of_mem_forall₂ h.rates hrate'
      exact allBlank_eq_false_of_parse hparse

/-! ## Models -/

omit [Scalar α] in
theorem symbolNames_namedSymbols (kind : Kind) (names : List String) :
    Always (ExprMatrix.namedSymbols kind names : Build (ExprMatrix α))
      fun m => m.elements.map Expr.symbolName? = names.map some := by
  intro n
  have hrun : (ExprMatrix.namedSymbols kind names : Build (ExprMatrix α)) n =
      (ExprMatrix.column kind (symbolsFrom n names), n + names.length) :=
    congrArg (fun run : List (Expr α) × Nat => (ExprMatrix.column kind run.1, run.2))
      (mapM_mkSymbol names n)
  rw [hrun]
  exact symbolName?_symbolsFrom n names

/-- Parameters that are alike, if there are any. -/
theorem inStep_parameterSymbols (kind : Kind) (h : d.Renamed α r d') :
    InStep ρ (d.parameterSymbols kind : Build (Option (ExprMatrix α))) (d'.parameterSymbols kind)
      (Option.Rel (ExprMatrix.Alike ρ)) := by
  rw [parameterSymbols, parameterSymbols, h.parameters]
  refine .ite (by rw [List.isEmpty_map]) (.pure .none) ?_
  exact (ExprMatrix.inStep_namedSymbols kind (List.length_map r).symm).bind
    fun _ _ hp => .pure (.some hp)

omit [Scalar α] in
theorem symbolNames_parameterSymbols (kind : Kind) (d : Declaration) :
    Always (d.parameterSymbols kind : Build (Option (ExprMatrix α)))
      fun p => (p.toList.flatMap ExprMatrix.elements).map Expr.symbolName? =
        d.parameters.map some := by
  rw [parameterSymbols]
  by_cases hempty : d.parameters.isEmpty = true
  · rw [if_pos hempty, List.isEmpty_iff.mp hempty]
    exact Always.pure rfl
  · rw [if_neg hempty]
    refine (symbolNames_namedSymbols kind d.parameters).bind fun p hp => Always.pure ?_
    rw [Option.toList_some, List.flatMap_singleton]
    exact hp

/-- The rates are alike if the names in them stand for what is alike. -/
theorem together_rateExprs (hρ : BiUnique ρ) {table table' : SymbolTable α} {new : String → String}
    {rates rates' : List String}
    (h : List.Forall₂ (fun text text' => ∃ f : Formula α, parseFormula text = .ok f ∧
      parseFormula text' = .ok (f.rename new) ∧
        ∀ s ∈ f.names, NamesAlike ρ table table' s (new s)) rates rates') (index : Nat) :
    Together ρ (rateExprs table index rates) (rateExprs table' index rates')
      (List.Forall₂ (Expr.Alike ρ)) := by
  induction h generalizing index with
  | nil => exact .pure .nil
  | cons hrate _ ih =>
      obtain ⟨f, hparse, hparse', hnames⟩ := hrate
      rw [rateExprs, rateExprs, parseExpr, parseExpr, hparse, hparse']
      refine ((f.together_lower hρ hnames).adapt _ _).bind fun e e' he => ?_
      exact (ih (index + 1)).bind fun es es' hes => .pure (.cons he hes)

/-- **The models of a declaration and of the same under other names are alike.** -/
theorem together_toModel (hρ : BiUnique ρ) (hr : d.Renaming α r) (h : d.Renamed α r d') :
    Together ρ (d.toModel : Attempt DescriptionError (Model α)) d'.toModel (Model.Alike ρ) := by
  have hcolumn : ∀ (kind : Kind) (names : List String),
      InStep ρ (ExprMatrix.namedSymbols kind names : Build (ExprMatrix α))
        (ExprMatrix.namedSymbols kind (names.map r)) fun m m' => m.Alike ρ m' ∧
          m.elements.map Expr.symbolName? = names.map some ∧
          m'.elements.map Expr.symbolName? = (names.map r).map some := fun kind names =>
    (ExprMatrix.inStep_namedSymbols kind (List.length_map r).symm).and
      (symbolNames_namedSymbols kind names) (symbolNames_namedSymbols kind _)
  rw [toModel, toModel, h.name, h.representation, h.x, h.u]
  cases Representation.ofName? d.representation with
  | none => exact .throw _ _
  | some representation =>
      dsimp only
      refine (Together.lift (hcolumn _ d.x)).bind ?_
      rintro x x' ⟨hx, hxs, hxs'⟩
      refine (Together.lift (hcolumn _ d.u)).bind ?_
      rintro u u' ⟨hu, hus, hus'⟩
      refine (Together.lift ((inStep_parameterSymbols _ h).and
        (symbolNames_parameterSymbols _ d) (symbolNames_parameterSymbols _ d'))).bind ?_
      rintro p p' ⟨hp, hps, hps'⟩
      -- the tables are of symbols that are alike, of the old names and of the new ones
      have hsymbols : List.Forall₂ (Expr.Alike ρ) (([x, u] ++ p.toList).flatMap ExprMatrix.elements)
          (([x', u'] ++ p'.toList).flatMap ExprMatrix.elements) := by
        refine List.rel_flatMap (.cons hx (.cons hu ?_)) fun _ _ hm => hm.elements
        cases hp with
        | none => exact .nil
        | some hp => exact .cons hp .nil
      have hnames : (([x, u] ++ p.toList).flatMap ExprMatrix.elements).map Expr.symbolName? =
          d.names.map some := by
        simp [names, hxs, hus, hps]
      have hnames' : (([x', u'] ++ p'.toList).flatMap ExprMatrix.elements).map Expr.symbolName? =
          (d.names.map r).map some := by
        rw [← h.names_eq]
        simp [names, h.x, h.u, hxs', hus', hps']
      have hdeclared := (List.forall₂_and_left _ _).mpr ⟨fun text htext => htext, h.rates⟩
      have hrates := together_rateExprs hρ (hdeclared.imp fun text text' hrate => by
        obtain ⟨htext, f, hparse, hparse'⟩ := hrate
        exact ⟨f, hparse, hparse', fun s hs => namesAlike_of_renamed hsymbols hnames hnames'
          (fun a ha => hr.eq_iff htext hparse hs ha) fun hs => if_neg hs⟩) 0
      refine (hrates.adapt _ _).bind fun rates rates' hrates =>
        .pure ⟨rfl, hx, hu, ?_, ExprMatrix.alike_column _ hrates⟩
      cases hp with
      | none => exact .separate .nil
      | some hp => exact .symbolic hp

end Declaration

end ExplicitOde
