import ExplicitOde.Proofs.Code.Alike
import ExplicitOde.Proofs.Declaration.Renaming
import ExplicitOde.Scalar.Double

/-!
# Code does not depend on names

From the text of a declaration to the code of its functions, nothing depends on what states,
controls and parameters are called, nor on where the identities of nodes start:
**two texts that declare one model under different names have the same code**.
-/

namespace ExplicitOde

open Relator (BiUnique)
open ExplicitOde.Expr SymbolicFunction

variable {α : Type} {ρ : Nat → Nat → Prop}

/-- Accepted functions that are alike have the same code. -/
theorem SymbolicFunction.Alike.generateCode_eq [Written α] (hρ : BiUnique ρ)
    {f g : SymbolicFunction α} (h : f.Alike ρ g) (hf : Accepted f.inputs f.outputs)
    (hg : Accepted g.inputs g.outputs) (options : CodeOptions) :
    generateCode options f = generateCode options g := by
  have hshapes : ∀ {ms ms' : List (ExprMatrix α)}, List.Forall₂ (ExprMatrix.Alike ρ) ms ms' →
      SameShapes ms ms' :=
    fun hms => hms.imp fun _ _ hm => ⟨hm.shape_eq, hm.numel_eq⟩
  refine Code.generateCode_congr h.name (hshapes h.inputs) (hshapes h.outputs) ?_ options
  refine Kernel.ofFunction_alike hρ (h.outputs.imp fun _ _ hm => hm.elements)
    fun e he e' halike hsymbol => ?_
  -- the symbol is an element of an input, and its counterpart is the element at the same place
  obtain ⟨i, k, input, x, hi, hk, hid⟩ := Kernel.exists_element hf he hsymbol
  obtain ⟨input', hi', hinput⟩ := Grid.forall₂_getElem? h.inputs hi
  obtain ⟨x', hk', hx⟩ := Grid.forall₂_getElem? hinput.elements hk
  have hid' : x'.id = e'.id := (eq_iff_of_biUnique hρ hx.id halike.id).mp hid
  refine ⟨(i, k), ?_, ?_⟩
  · rw [← hid]
    exact Kernel.getElem?_places hf hi hk
  · rw [← hid']
    exact Kernel.getElem?_places hg hi' hk'

namespace Declaration

variable [Scalar α]

/-- The functions of the model that a text declares. -/
def functionsOfText (text : String) :
    Attempt DescriptionError (Sensitivities (SymbolicFunction α)) := do
  let m ← modelOfText text
  m.sensitivities.adapt .model

omit [Scalar α] in
theorem ofValidText_eq_ok_iff {text : String} {d : Declaration} :
    ofValidText text = .ok d ↔ ofText text = .ok d ∧ d.validate .plain = .ok () := by
  rw [ofValidText, bind_eq_ok_iff]
  constructor
  · rintro ⟨d', hd', h⟩
    obtain ⟨_, hvalid, h⟩ := bind_eq_ok_iff.mp h
    injection h with h
    exact h ▸ ⟨hd', hvalid⟩
  · rintro ⟨hd, hvalid⟩
    exact ⟨d, hd, bind_eq_ok_iff.mpr ⟨(), hvalid, rfl⟩⟩

theorem modelOfText_eq {text : String} {d : Declaration} (h : ofValidText text = .ok d) :
    (modelOfText text : Attempt DescriptionError (Model α)) = d.toModel := by
  rw [modelOfText, h]

/-- A declared model has functions, all of them accepted. -/
theorem functionsOfText_of_model {text : String} {n next : Nat} {m : Model α}
    (h : (modelOfText text : Attempt DescriptionError (Model α)) n = (.ok m, next)) :
    ∃ s : Sensitivities (SymbolicFunction α), (functionsOfText text n).1 = .ok s ∧
      ∀ k, Accepted (s.get k).inputs (s.get k).outputs := by
  obtain ⟨_, _, _, _, _, _, hwellPosed, _⟩ := modelOfText_fits h
  obtain ⟨s, hs, htyped⟩ := hwellPosed.exists_typed
  refine ⟨s, ?_, htyped.accepted⟩
  rw [functionsOfText, bind_run h]
  exact adapt_run DescriptionError.model hs

theorem accepted_of_functionsOfText {text : String} {n : Nat}
    {s : Sensitivities (SymbolicFunction α)} (h : (functionsOfText text n).1 = .ok s)
    (k : FunctionKind) : Accepted (s.get k).inputs (s.get k).outputs := by
  obtain ⟨m, next, hm, _⟩ := bind_run_iff.mp h
  obtain ⟨s', hs', haccepted⟩ := functionsOfText_of_model hm
  obtain rfl := Except.ok.inj (h.symm.trans hs')
  exact haccepted k

variable {text text' : String} {d d' : Declaration} {r : String → String} {n : Nat}

/-- The functions of a text and of the same declaration under other names have the same code,
wherever the identities of the latter start. -/
theorem code_eq_of_renamed [Written α] {s : Sensitivities (SymbolicFunction α)}
    (hs : (functionsOfText text n).1 = .ok s) (hd : ofValidText text = .ok d)
    (hd' : ofValidText text' = .ok d') (hr : d.Renaming α r) (h : d.Renamed α r d') (n' : Nat) :
    ∃ s' : Sensitivities (SymbolicFunction α), (functionsOfText text' n').1 = .ok s' ∧
      ∀ k options, generateCode options (s.get k) = generateCode options (s'.get k) := by
  have hρ := biUnique_shifted n n'
  have htogether : Together (Shifted n n') (functionsOfText (α := α) text) (functionsOfText text')
      (SensitivitiesAlike (Shifted n n')) := by
    rw [functionsOfText, functionsOfText, modelOfText_eq hd, modelOfText_eq hd']
    exact (together_toModel hρ hr h).bind fun _ _ hm => (together_sensitivities hρ hm).adapt _ _
  obtain ⟨s', _, hs', halike, _⟩ := htogether.exists_ok (onward_shifted n n') (Prod.ext hs rfl)
  have hs' := congrArg Prod.fst hs'
  refine ⟨s', hs', fun k options => ?_⟩
  exact (halike k).generateCode_eq hρ (accepted_of_functionsOfText hs k)
    (accepted_of_functionsOfText hs' k) options

/-- Every name may be kept. -/
theorem renaming_id (hvalid : d.validate .plain = .ok ()) : d.Renaming α fun s => s where
  injective := fun _ _ _ _ h => h
  identifiers := by
    obtain ⟨_, _, hsymbols, _⟩ := validate_eq_ok_iff.mp hvalid
    have hnames := (checkSymbols_eq_ok_iff.mp hsymbols).1
    rw [snd_symbols] at hnames
    exact fun s hs => (hnames s hs).1
  avoids := fun _ _ _ _ _ _ hundeclared _ hs heq => hundeclared (heq ▸ hs)

/-- A declaration whose rates are formulas is the same under its own names. -/
theorem renamed_id (h : ∀ text ∈ d.rates, ∃ f : Formula α, parseFormula text = .ok f) :
    d.Renamed α (fun s => s) d where
  name := rfl
  representation := rfl
  x := (List.map_id' _).symm
  u := (List.map_id' _).symm
  parameters := (List.map_id' _).symm
  rates := by
    refine List.forall₂_same.mpr fun text htext => ?_
    obtain ⟨f, hparse⟩ := h text htext
    have hkept : f.rename (d.newName fun s => s) = f := f.rename_eq_self fun s _ => ite_self s
    exact ⟨f, hparse, hkept.symm ▸ hparse⟩

theorem Renamed.self (h : d.Renamed α r d') : d.Renamed α (fun s => s) d := by
  refine renamed_id fun text htext => ?_
  obtain ⟨_, _, f, hparse, _⟩ := Grid.exists_of_mem_forall₂ h.rates.flip htext
  exact ⟨f, hparse⟩

/-- Wherever identities start, a text declares the same model. -/
theorem modelOfText_again {next : Nat} {m : Model α}
    (h : (modelOfText text : Attempt DescriptionError (Model α)) n = (.ok m, next)) (n' : Nat) :
    ∃ m' next', (modelOfText text : Attempt DescriptionError (Model α)) n' = (.ok m', next') ∧
      m.Alike (Shifted n n') m' ∧ Onward (Shifted n n') next next' := by
  obtain ⟨d, hd, hmodel⟩ := modelOfText_ok h
  obtain ⟨_, _, _, hfits⟩ := @toModel_yields α (Pool.empty n) _ d _
    fun p hmem => lowering_names n d.names hmem
  obtain ⟨_, rates, _, _, hrates⟩ := hfits m (congrArg Prod.fst hmodel)
  have hself : d.Renamed α (fun s => s) d := renamed_id fun text htext => by
    obtain ⟨_, _, f, hparse, _⟩ := Grid.exists_of_mem_forall₂ hrates.flip htext
    exact ⟨f, hparse⟩
  have hvalid := (ofValidText_eq_ok_iff.mp hd).2
  obtain ⟨m', next', hm', halike, hnext⟩ :=
    (together_toModel (biUnique_shifted n n') (renaming_id hvalid) hself).exists_ok
      (onward_shifted n n') hmodel
  exact ⟨m', next', by rw [modelOfText_eq hd, hm'], halike, hnext⟩

/-- **Under other names a declared model has the same code.** The names may be replaced by any
distinct identifiers that the rates do not use otherwise, the identities of the nodes may start
anywhere on both sides, and the texts may differ in all that the formulas do not depend on. -/
theorem generateCode_eq_of_renamed [Written α] {n₀ next : Nat} {m : Model α}
    (haccepted : (modelOfText text : Attempt DescriptionError (Model α)) n₀ = (.ok m, next))
    (hd : ofText text = .ok d) (hd' : ofText text' = .ok d') (hr : d.Renaming α r)
    (h : d.Renamed α r d') (n n' : Nat) :
    ∃ s s' : Sensitivities (SymbolicFunction α),
      (functionsOfText text n).1 = .ok s ∧ (functionsOfText text' n').1 = .ok s' ∧
        ∀ (k : FunctionKind) (options : CodeOptions),
          generateCode options (s.get k) = generateCode options (s'.get k) := by
  obtain ⟨d₀, hd₀, _⟩ := modelOfText_ok haccepted
  obtain ⟨hread, hvalid⟩ := ofValidText_eq_ok_iff.mp hd₀
  obtain rfl : d₀ = d := Except.ok.inj (hread.symm.trans hd)
  have hvalid' := ofValidText_eq_ok_iff.mpr ⟨hd', h.validate hr hvalid⟩
  -- both texts have the code of the run that was accepted
  obtain ⟨s₀, hs₀, _⟩ := functionsOfText_of_model haccepted
  obtain ⟨s, hs, hcode⟩ := code_eq_of_renamed hs₀ hd₀ hd₀ (renaming_id hvalid) h.self n
  obtain ⟨s', hs', hcode'⟩ := code_eq_of_renamed hs₀ hd₀ hvalid' hr h n'
  exact ⟨s, s', hs, hs', fun k options => (hcode k options).symm.trans (hcode' k options)⟩

/-! The declaration of one state, one control and one parameter, where state and control exchange
their names and the parameter takes that of the circle constant. -/

/-- The text under the other names. -/
def exchangedText : String :=
  "\x7b\"schema\":\"1.0\",\"name\":\"driven\",\"x\":[\"w\"],\"u\":[\"a\"],\"p\":[\"pi\"]," ++
    "\"f_expl\":[\"a - (pi*w)\"]\x7d"

/-- The declaration that is spelt. -/
def exchanged : Declaration :=
  { driven with x := ["w"], u := ["a"], p := some ["pi"], rates := ["a - (pi*w)"] }

/-- The new names of the declared ones. -/
def exchange (s : String) : String :=
  if s = "a" then "w" else if s = "w" then "a" else "pi"

open Document in
theorem ofText_exchanged : ofText exchangedText = .ok exchanged := by
  have hreads : Reads (Document.record [("schema", text "1.0"), ("name", text "driven"),
      ("x", Document.list [text "w"]), ("u", Document.list [text "a"]),
      ("p", Document.list [text "pi"]), ("f_expl", Document.list [text "a - (pi*w)"])])
      exchangedText.toList [] := by
    unfold exchangedText
    simp only [String.reduceAppend, String.reduceToList]
    refine .keyed rfl rfl ?_
    refine .more (.string rfl rfl) rfl (.string rfl rfl) rfl ?_
    refine .more (.string rfl rfl) rfl (.string rfl rfl) rfl ?_
    refine .more (.string rfl rfl) rfl (.singleton rfl rfl) rfl ?_
    refine .more (.string rfl rfl) rfl (.singleton rfl rfl) rfl ?_
    refine .more (.string rfl rfl) rfl (.singleton rfl rfl) rfl ?_
    exact .last (.string rfl rfl) rfl (.singleton rfl rfl) rfl
  rw [ofText, Document.decodeText, Document.read, hreads.value, hreads.rest]
  rfl

theorem parseFormula_exchanged : (parseFormula "a - (pi*w)" : Except FormulaError (Formula α)) =
    .ok (.binary .sub (.name "a") (.binary .mul (.name "pi") (.name "w"))) := by
  cbv

theorem driven_renaming : driven.Renaming α exchange where
  injective := List.inj_on_of_nodup_map (by decide)
  identifiers := by decide
  avoids := by
    refine List.forall_mem_singleton.mpr fun f hf t ht hundeclared => ?_
    obtain rfl := Except.ok.inj (parseFormula_driven.symm.trans hf)
    have hdeclared : ∀ t ∈ ["w", "k", "a"], t ∈ driven.names := by decide
    simp only [Formula.names] at ht
    exact absurd (hdeclared t ht) hundeclared

theorem driven_renamed : driven.Renamed α exchange exchanged where
  name := rfl
  representation := rfl
  x := rfl
  u := rfl
  parameters := rfl
  rates := by
    refine .cons ⟨_, parseFormula_driven, ?_⟩ .nil
    have hnew : ∀ s, s ∈ driven.names → driven.newName exchange s = exchange s :=
      fun s hs => if_pos hs
    simp only [Formula.rename]
    rw [hnew "w" (by decide), hnew "k" (by decide), hnew "a" (by decide)]
    exact parseFormula_exchanged

/-- The two texts have the same code in double precision, with identities from 0 on and from 7
on. -/
theorem generateCode_eq_of_renamed_exchanged : ∃ s s' : Sensitivities (SymbolicFunction Float),
    (functionsOfText drivenText 0).1 = .ok s ∧ (functionsOfText exchangedText 7).1 = .ok s' ∧
      generateCode {} (s.get .hessian) = generateCode {} (s'.get .hessian) := by
  have hd : ofText drivenText = .ok driven := (ofValidText_eq_ok_iff.mp ofValidText_driven).1
  obtain ⟨s, s', hs, hs', hcode⟩ := generateCode_eq_of_renamed (α := Float) modelOfText_driven hd
    ofText_exchanged driven_renaming driven_renamed 0 7
  exact ⟨s, s', hs, hs', hcode .hessian {}⟩

end Declaration

end ExplicitOde
