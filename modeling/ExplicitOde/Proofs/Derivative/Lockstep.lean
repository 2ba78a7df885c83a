import ExplicitOde.Proofs.Derivative.Transpose
import ExplicitOde.Proofs.Expr.Lockstep

/-!
# Derivatives in step

Tangents and weights are kept in tables by identity. Tables are alike if they have entries that are
alike at related identities, so what one run finds the other finds too: **both sweeps take
expressions that are alike to derivatives that are alike**.
-/

namespace ExplicitOde

open Relator (BiUnique)
open ExplicitOde.Expr

variable {α : Type} {ρ : Nat → Nat → Prop}

/-- At related identities the tables have entries that are alike, or none. -/
def TablesAlike (ρ : Nat → Nat → Prop) (table table' : ExprTable α) : Prop :=
  ∀ i j, ρ i j → Option.Rel (Expr.Alike ρ) table[i]? table'[j]?

section Tables

variable {table table' : ExprTable α}

theorem tablesAlike_empty : TablesAlike ρ (∅ : ExprTable α) ∅ := by
  intro i j _
  rw [Std.HashMap.getElem?_empty, Std.HashMap.getElem?_empty]
  exact .none

theorem TablesAlike.insert (hρ : BiUnique ρ) (h : TablesAlike ρ table table') {i j : Nat}
    (hij : ρ i j) {e e' : Expr α} (he : e.Alike ρ e') :
    TablesAlike ρ (table.insert i e) (table'.insert j e') := by
  intro k l hkl
  rw [Std.HashMap.getElem?_insert, Std.HashMap.getElem?_insert]
  refine rel_ite ?_ (.some he) (h k l hkl)
  rw [beq_eq_of_biUnique hρ hij hkl]

/-- Directions along related symbols are alike. -/
theorem tablesAlike_directionOf (hρ : BiUnique ρ) {symbols symbols' : List Nat}
    {seed seed' : List (Expr α)} (hsymbols : List.Forall₂ ρ symbols symbols')
    (hseed : List.Forall₂ (Expr.Alike ρ) seed seed') :
    TablesAlike ρ (directionOf symbols seed) (directionOf symbols' seed') := by
  have hall : ∀ {table table' : ExprTable α}, TablesAlike ρ table table' →
      TablesAlike ρ (table.insertMany (symbols.zip seed))
        (table'.insertMany (symbols'.zip seed')) := by
    induction hsymbols generalizing seed seed' with
    | nil => exact fun h => by simpa using h
    | cons hid _ ih =>
        intro table table' h
        cases hseed with
        | nil => simpa using h
        | cons he hrest =>
            rw [List.zip_cons_cons, List.zip_cons_cons, Std.HashMap.insertMany_cons,
              Std.HashMap.insertMany_cons]
            exact ih hrest (h.insert hρ hid he)
  rw [directionOf, directionOf, Std.HashMap.ofList_eq_insertMany_empty,
    Std.HashMap.ofList_eq_insertMany_empty]
  exact hall tablesAlike_empty

variable [Scalar α]

/-- An entry, or the constant zero where there is none. -/
theorem inStep_symbolWeight (h : TablesAlike ρ table table') {i j : Nat}
    (hij : ρ i j) : InStep ρ (symbolWeight table i) (symbolWeight table' j) (Expr.Alike ρ) := by
  have hentry := h i j hij
  rw [symbolWeight, symbolWeight]
  generalize table[i]? = e at hentry
  generalize table'[j]? = e' at hentry
  cases hentry with
  | some he => exact .pure he
  | none => exact inStep_mkZero

end Tables

variable [Scalar α] {table table' : ExprTable α}

/-! ## Forward sweeps -/

theorem inStep_addTangent (hρ : BiUnique ρ) (htable : TablesAlike ρ table table')
    {sum sum' : Expr α} (hsum : sum.Alike ρ sum') {p p' : Expr α × Build (Expr α)}
    (hp : OperandAlike ρ p p') :
    InStep ρ (addTangent table sum p) (addTangent table' sum' p') (Expr.Alike ρ) := by
  have hentry := htable p.1.id p'.1.id hp.operand.id
  rw [addTangent, addTangent]
  generalize table[p.1.id]? = t at hentry
  generalize table'[p'.1.id]? = t' at hentry
  cases hentry with
  | none => exact .pure hsum
  | some ht =>
      refine .ite (by rw [ht.isZero_eq]) (.pure hsum) ?_
      refine hp.derivative.bind fun d d' hd => ?_
      exact (inStep_mkMul hρ hd ht).bind fun part part' hpart => inStep_mkAdd hρ hsum hpart

theorem inStep_tangentOf (hρ : BiUnique ρ) {direction direction' : ExprTable α}
    (hdirection : TablesAlike ρ direction direction') (htable : TablesAlike ρ table table')
    {e e' : Expr α} (he : e.Alike ρ e') :
    InStep ρ (tangentOf direction table e) (tangentOf direction' table' e') (Expr.Alike ρ) := by
  have hsum : InStep ρ (do e.partials.foldlM (addTangent table) (← mkZero))
      (do e'.partials.foldlM (addTangent table') (← mkZero)) (Expr.Alike ρ) :=
    inStep_mkZero.bind fun zero zero' hzero =>
      .foldlM (partials_alike hρ he) (fun _ _ hs _ _ hp => inStep_addTangent hρ htable hs hp) hzero
  cases he with
  | const => exact inStep_mkZero
  | symbol hid => exact inStep_symbolWeight hdirection hid
  | unary => exact hsum
  | binary => exact hsum

theorem inStep_tangentTable (hρ : BiUnique ρ) {direction direction' : ExprTable α}
    (hdirection : TablesAlike ρ direction direction') {order order' : List (Expr α)}
    (horder : List.Forall₂ (Expr.Alike ρ) order order') :
    InStep ρ (tangentTable direction order) (tangentTable direction' order') (TablesAlike ρ) := by
  refine .foldlM horder (fun table table' htable e e' he => ?_) tablesAlike_empty
  exact (inStep_tangentOf hρ hdirection htable he).bind fun t t' ht =>
    .pure (htable.insert hρ he.id ht)

theorem inStep_tangents (hρ : BiUnique ρ) {direction direction' : ExprTable α}
    (hdirection : TablesAlike ρ direction direction') {order order' roots roots' : List (Expr α)}
    (horder : List.Forall₂ (Expr.Alike ρ) order order')
    (hroots : List.Forall₂ (Expr.Alike ρ) roots roots') :
    InStep ρ (tangents order roots direction) (tangents order' roots' direction')
      (List.Forall₂ (Expr.Alike ρ)) :=
  (inStep_tangentTable hρ hdirection horder).bind fun _ _ htable =>
    .mapM hroots fun _ _ he => inStep_symbolWeight htable he.id

/-! ## Reverse sweeps -/

theorem inStep_addWeight (hρ : BiUnique ρ) (htable : TablesAlike ρ table table') {i j : Nat}
    (hij : ρ i j) {amount amount' : Expr α} (hamount : amount.Alike ρ amount') :
    InStep ρ (addWeight table i amount) (addWeight table' j amount') (TablesAlike ρ) := by
  have hadd : ∀ {sofar sofar' : Expr α}, sofar.Alike ρ sofar' →
      InStep ρ (do return table.insert i (← mkAdd sofar amount))
        (do return table'.insert j (← mkAdd sofar' amount')) (TablesAlike ρ) := fun hsofar =>
    (inStep_mkAdd hρ hsofar hamount).bind fun _ _ hsum => .pure (htable.insert hρ hij hsum)
  have hentry := htable i j hij
  unfold addWeight
  generalize table[i]? = t at hentry
  generalize table'[j]? = t' at hentry
  cases hentry with
  | some ht => exact hadd ht
  | none => exact inStep_mkZero.bind fun _ _ hzero => hadd hzero

theorem inStep_rootWeights (hρ : BiUnique ρ) {roots roots' seed seed' : List (Expr α)}
    (hroots : List.Forall₂ (Expr.Alike ρ) roots roots')
    (hseed : List.Forall₂ (Expr.Alike ρ) seed seed') :
    InStep ρ (rootWeights roots seed) (rootWeights roots' seed') (TablesAlike ρ) := by
  refine .foldlM (forall₂_zip_zip hroots hseed) (fun table table' htable p p' hp => ?_)
    tablesAlike_empty
  refine .ite (by rw [hp.2.isZero_eq]) (.pure htable) ?_
  exact inStep_addWeight hρ htable hp.1.id hp.2

/-- Weights of nodes and of symbols that are alike. -/
structure WeightsAlike (ρ : Nat → Nat → Prop) (w w' : Weights α) : Prop where
  nodes : TablesAlike ρ w.nodes w'.nodes
  symbols : TablesAlike ρ w.symbols w'.symbols

theorem inStep_passWeight (hρ : BiUnique ρ) {weight weight' : Expr α}
    (hweight : weight.Alike ρ weight') (htable : TablesAlike ρ table table')
    {p p' : Expr α × Build (Expr α)} (hp : OperandAlike ρ p p') :
    InStep ρ (passWeight weight table p) (passWeight weight' table' p') (TablesAlike ρ) := by
  rw [passWeight, passWeight]
  refine hp.derivative.bind fun part part' hpart => ?_
  exact (inStep_mkMul hρ hweight hpart).bind fun amount amount' hamount =>
    inStep_addWeight hρ htable hp.operand.id hamount

theorem inStep_visitWeight (hρ : BiUnique ρ) {w w' : Weights α} (hw : WeightsAlike ρ w w')
    {e e' : Expr α} (he : e.Alike ρ e') :
    InStep ρ (visitWeight w e) (visitWeight w' e') (WeightsAlike ρ) := by
  have hentry := hw.nodes e.id e'.id he.id
  -- nodes with operands pass the weight on to them, whatever their operation is
  have hpass : ∀ {weight weight' : Expr α}, weight.Alike ρ weight' →
      InStep ρ (do return { w with nodes := ← e.partials.foldlM (passWeight weight) w.nodes })
        (do return { w' with nodes := ← e'.partials.foldlM (passWeight weight') w'.nodes })
        (WeightsAlike ρ) := by
    intro weight weight' hweight
    have hnodes : InStep ρ (e.partials.foldlM (passWeight weight) w.nodes)
        (e'.partials.foldlM (passWeight weight') w'.nodes) (TablesAlike ρ) :=
      .foldlM (partials_alike hρ he) (fun _ _ ht _ _ hp => inStep_passWeight hρ hweight ht hp)
        hw.nodes
    exact hnodes.bind fun _ _ hn => .pure ⟨hn, hw.symbols⟩
  unfold visitWeight
  generalize w.nodes[e.id]? = t at hentry
  generalize w'.nodes[e'.id]? = t' at hentry
  cases hentry with
  | none => exact .pure hw
  | some hweight =>
      refine .ite (by rw [hweight.isZero_eq]) (.pure hw) ?_
      cases he with
      | const => exact .pure hw
      | symbol hid =>
          exact (inStep_addWeight hρ hw.symbols hid hweight).bind fun s s' hs =>
            .pure ⟨hw.nodes, hs⟩
      | unary => exact hpass hweight
      | binary => exact hpass hweight

theorem inStep_symbolWeights (hρ : BiUnique ρ)
    {order order' roots roots' seed seed' : List (Expr α)}
    (horder : List.Forall₂ (Expr.Alike ρ) order order')
    (hroots : List.Forall₂ (Expr.Alike ρ) roots roots')
    (hseed : List.Forall₂ (Expr.Alike ρ) seed seed') :
    InStep ρ (symbolWeights order roots seed) (symbolWeights order' roots' seed')
      (TablesAlike ρ) := by
  rw [symbolWeights, symbolWeights]
  refine (inStep_rootWeights hρ hroots hseed).bind fun start start' hstart => ?_
  have hsweep : InStep ρ (order.reverse.foldlM visitWeight ⟨start, ∅⟩)
      (order'.reverse.foldlM visitWeight ⟨start', ∅⟩) (WeightsAlike ρ) :=
    .foldlM (List.rel_reverse horder) (fun _ _ hw _ _ he => inStep_visitWeight hρ hw he)
      ⟨hstart, tablesAlike_empty⟩
  exact hsweep.bind fun final final' hfinal => .pure hfinal.symbols

theorem inStep_reverseColumn (hρ : BiUnique ρ) {roots roots' seed seed' : List (Expr α)}
    (hroots : List.Forall₂ (Expr.Alike ρ) roots roots')
    (hseed : List.Forall₂ (Expr.Alike ρ) seed seed') {symbols symbols' : List Nat}
    (hsymbols : List.Forall₂ ρ symbols symbols') :
    InStep ρ (reverseColumn roots seed symbols) (reverseColumn roots' seed' symbols')
      (List.Forall₂ (Expr.Alike ρ)) := by
  have horder := evaluationOrder_alike hρ hroots
  refine (inStep_symbolWeights hρ horder hroots hseed).bind fun table table' htable => ?_
  exact .mapM hsymbols fun _ _ hid => inStep_symbolWeight htable hid

end ExplicitOde
