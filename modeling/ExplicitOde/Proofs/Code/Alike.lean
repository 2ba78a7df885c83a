import ExplicitOde.Code.Source
import ExplicitOde.Proofs.Code.Kernel
import ExplicitOde.Proofs.Expr.Alike

/-!
# Functions that are alike have the same code

A kernel names its slots by the order of evaluation and reads arguments by their places, so that no
identity and no name of a symbol is left in it: **functions that are alike have one kernel**,
`ofFunction_alike`. Everything else in the generated code is about names of functions and shapes:
`generateCode_congr`.
-/

namespace ExplicitOde

open Relator (BiUnique)

variable {α : Type} {ρ : Nat → Nat → Prop}

/-! ## Kernels -/

namespace Kernel

/-- Two kernels in the making that have assigned the same slots, and read related nodes alike. -/
structure Draft.Alike (ρ : Nat → Nat → Prop) (d d' : Draft α) : Prop where
  operands : ∀ i j, ρ i j → d.operands[i]? = d'.operands[j]?
  slots : d.slots = d'.slots

variable {d d' : Draft α} {symbols symbols' : Std.HashMap Nat (Nat × Nat)} {e e' : Expr α}

theorem Draft.Alike.operand_eq (hd : d.Alike ρ d') (he : e.Alike ρ e') :
    d.operand e = d'.operand e' := by
  rw [Draft.operand, Draft.operand, Std.HashMap.getD_eq_getD_getElem?,
    Std.HashMap.getD_eq_getD_getElem?, hd.operands e.id e'.id he.id]

theorem Draft.Alike.insert (hρ : BiUnique ρ) (hd : d.Alike ρ d') {i j : Nat} (hij : ρ i j)
    (op : Operand α) : ∀ k l, ρ k l →
      (d.operands.insert i op)[k]? = (d'.operands.insert j op)[l]? := by
  intro k l hkl
  rw [Std.HashMap.getElem?_insert, Std.HashMap.getElem?_insert, beq_eq_of_biUnique hρ hij hkl,
    hd.operands k l hkl]

theorem Draft.Alike.assign (hρ : BiUnique ρ) (hd : d.Alike ρ d') {i j : Nat} (hij : ρ i j)
    (value : SlotValue α) : (d.assign i value).Alike ρ (d'.assign j value) where
  operands := by
    rw [Draft.assign, Draft.assign, hd.slots]
    exact hd.insert hρ hij _
  slots := by rw [Draft.assign, Draft.assign, hd.slots]

/-- A node is added alike to both, if its symbol has one place on both sides. -/
theorem Draft.Alike.add (hρ : BiUnique ρ) (hd : d.Alike ρ d') (he : e.Alike ρ e')
    (hplace : e.isSymbol = true →
      ∃ place, symbols[e.id]? = some place ∧ symbols'[e'.id]? = some place) (name name' : String) :
    ∃ next next', Draft.add name symbols d e = .ok next ∧
      Draft.add name' symbols' d' e' = .ok next' ∧ next.Alike ρ next' := by
  cases he with
  | const hid => exact ⟨_, _, rfl, rfl, hd.insert hρ hid _, hd.slots⟩
  | @symbol i j s s' hid =>
      obtain ⟨place, hi, hj⟩ := hplace rfl
      have hi : symbols[i]? = some place := hi
      have hj : symbols'[j]? = some place := hj
      rw [Draft.add, Draft.add, hi, hj]
      exact ⟨_, _, rfl, rfl, hd.assign hρ hid _⟩
  | unary hid ha =>
      rw [Draft.add, Draft.add, hd.operand_eq ha]
      exact ⟨_, _, rfl, rfl, hd.assign hρ hid _⟩
  | binary hid ha hb =>
      rw [Draft.add, Draft.add, hd.operand_eq ha, hd.operand_eq hb]
      exact ⟨_, _, rfl, rfl, hd.assign hρ hid _⟩

/-- Nodes that are alike are added alike, one after the other. -/
theorem Draft.Alike.foldlM (hρ : BiUnique ρ) {es es' : List (Expr α)}
    (hes : List.Forall₂ (Expr.Alike ρ) es es')
    (hplace : ∀ e ∈ es, ∀ e', e.Alike ρ e' → e.isSymbol = true →
      ∃ place, symbols[e.id]? = some place ∧ symbols'[e'.id]? = some place) (name name' : String) :
    ∀ {d d' : Draft α}, d.Alike ρ d' → ∃ last last',
      es.foldlM (Draft.add name symbols) d = .ok last ∧
      es'.foldlM (Draft.add name' symbols') d' = .ok last' ∧ last.Alike ρ last' := by
  induction hes with
  | nil => exact fun hd => ⟨_, _, rfl, rfl, hd⟩
  | cons he _ ih =>
      intro d d' hd
      obtain ⟨next, next', hnext, hnext', hn⟩ :=
        hd.add hρ he (hplace _ List.mem_cons_self _ he) name name'
      obtain ⟨last, last', hlast, hlast', hl⟩ :=
        ih (fun x hx => hplace x (List.mem_cons_of_mem _ hx)) hn
      refine ⟨last, last', ?_, ?_, hl⟩
      · rw [List.foldlM_cons, hnext]
        exact hlast
      · rw [List.foldlM_cons, hnext']
        exact hlast'

open SymbolicFunction

/-- **Functions that are alike have one kernel**, if each symbol has one place on both sides. -/
theorem ofFunction_alike (hρ : BiUnique ρ) {f g : SymbolicFunction α}
    (houtputs : List.Forall₂ (fun m m' => List.Forall₂ (Expr.Alike ρ) m.elements m'.elements)
      f.outputs g.outputs)
    (hplace : ∀ e ∈ evaluationOrder (outputElements f.outputs), ∀ e', e.Alike ρ e' →
      e.isSymbol = true →
      ∃ place, (places f.inputs)[e.id]? = some place ∧ (places g.inputs)[e'.id]? = some place) :
    ofFunction f = ofFunction g := by
  have hroots : List.Forall₂ (Expr.Alike ρ) (outputElements f.outputs)
      (outputElements g.outputs) := List.rel_flatMap houtputs fun _ _ h => h
  have hstart : Draft.Alike ρ (⟨∅, #[]⟩ : Draft α) ⟨∅, #[]⟩ := ⟨fun _ _ _ => by simp, rfl⟩
  obtain ⟨last, last', hlast, hlast', hl⟩ :=
    Draft.Alike.foldlM hρ (evaluationOrder_alike hρ hroots) hplace f.name g.name hstart
  have hresults : f.outputs.map (fun m => m.elements.map last.operand) =
      g.outputs.map fun m => m.elements.map last'.operand := by
    rw [← List.forall₂_eq_eq_eq, List.forall₂_map_left_iff, List.forall₂_map_right_iff]
    refine houtputs.imp fun m m' hm => ?_
    rw [← List.forall₂_eq_eq_eq, List.forall₂_map_left_iff, List.forall₂_map_right_iff]
    exact hm.imp fun _ _ he => hl.operand_eq he
  rw [ofFunction, ofFunction, hlast, hlast']
  show Except.ok _ = Except.ok _
  rw [hl.slots, hresults]

end Kernel

/-! ## Texts -/

/-- Matrices of one shape, with equally many elements. -/
structure ExprMatrix.SameShape (m m' : ExprMatrix α) : Prop where
  shape : m.shape = m'.shape
  numel : m.numel = m'.numel

/-- Lists of matrices of the same shapes. -/
abbrev SameShapes (ms ms' : List (ExprMatrix α)) : Prop :=
  List.Forall₂ ExprMatrix.SameShape ms ms'

section Texts

variable {ms ms' : List (ExprMatrix α)} {γ : Type}

/-- What is made of the shape of every matrix is the same. -/
theorem SameShapes.map_eq (h : SameShapes ms ms') {F : ExprMatrix α → γ}
    (hF : ∀ {m m' : ExprMatrix α}, m.SameShape m' → F m = F m') : ms.map F = ms'.map F := by
  rw [← List.forall₂_eq_eq_eq, List.forall₂_map_left_iff, List.forall₂_map_right_iff]
  exact h.imp fun _ _ hm => hF hm

/-- What is made of the shape of every matrix and its place is the same. -/
theorem SameShapes.zipIdx_map_eq (h : SameShapes ms ms') {F : ExprMatrix α × Nat → γ}
    (hF : ∀ {m m' : ExprMatrix α}, m.SameShape m' → ∀ i, F (m, i) = F (m', i)) :
    ms.zipIdx.map F = ms'.zipIdx.map F := by
  have hfrom : ∀ n, (ms.zipIdx n).map F = (ms'.zipIdx n).map F := by
    induction h with
    | nil => exact fun _ => rfl
    | cons hm _ ih =>
        intro n
        rw [List.zipIdx_cons, List.zipIdx_cons, List.map_cons, List.map_cons, hF hm, ih]
  exact hfrom 0

end Texts

namespace Code

variable {f g : SymbolicFunction α}

theorem describeAll_congr (name : Nat → String) {ms ms' : List (ExprMatrix α)}
    (h : SameShapes ms ms') : describeAll name ms = describeAll name ms' := by
  rw [describeAll, describeAll]
  refine congrArg _ (h.zipIdx_map_eq fun hm i => ?_)
  dsimp only
  rw [hm.shape]

section Congruence

variable (hname : f.name = g.name) (hinputs : SameShapes f.inputs g.inputs)
  (houtputs : SameShapes f.outputs g.outputs)

include hinputs houtputs

theorem shapes_congr : f.shapes = g.shapes := by
  rw [SymbolicFunction.shapes, SymbolicFunction.shapes]
  exact congrArg _ (SameShapes.map_eq (List.rel_append hinputs houtputs) ExprMatrix.SameShape.shape)

include hname

theorem queryLines_congr (query : Query) : queryLines f query = queryLines g query := by
  have hindex : f.patternIndex = g.patternIndex := by
    funext shape
    rw [SymbolicFunction.patternIndex, SymbolicFunction.patternIndex,
      shapes_congr hinputs houtputs]
  have hpatterns : ∀ {ms ms' : List (ExprMatrix α)}, SameShapes ms ms' →
      (ms.map fun m => patternName (g.patternIndex m.shape)) =
        ms'.map fun m => patternName (g.patternIndex m.shape) :=
    fun h => h.map_eq fun hm => by rw [hm.shape]
  cases query <;>
    simp only [queryLines, hname, hinputs.length_eq, houtputs.length_eq, hindex,
      hpatterns hinputs, hpatterns houtputs]

theorem mexLines_congr : mexLines f = mexLines g := by
  have hinput : ∀ {m m' : ExprMatrix α}, m.SameShape m' → ∀ i,
      mexInputLines g.name i m = mexInputLines g.name i m' := by
    intro m m' hm i
    have hrows : m.rows = m'.rows := congrArg Prod.fst hm.shape
    have hcols : m.cols = m'.cols := congrArg Prod.snd hm.shape
    rw [mexInputLines, mexInputLines, hm.numel, hrows, hcols]
  have houtput : ∀ {m m' : ExprMatrix α}, m.SameShape m' → ∀ i,
      mexOutputLines i m = mexOutputLines i m' := by
    intro m m' hm i
    have hrows : m.rows = m'.rows := congrArg Prod.fst hm.shape
    have hcols : m.cols = m'.cols := congrArg Prod.snd hm.shape
    rw [mexOutputLines, mexOutputLines, hrows, hcols]
  simp only [mexLines, hname, hinputs.length_eq, houtputs.length_eq, List.flatMap_def]
  rw [hinputs.zipIdx_map_eq fun hm i => hinput hm i,
    houtputs.zipIdx_map_eq fun hm i => houtput hm i]

/-- **Generated code is about names of functions, shapes and kernels.** -/
theorem generateCode_congr [Written α] (hkernel : Kernel.ofFunction f = Kernel.ofFunction g)
    (options : CodeOptions) : generateCode options f = generateCode options g := by
  have hdescription : description f = description g := by
    rw [description, description, hname, describeAll_congr _ hinputs, describeAll_congr _ houtputs]
  have hqueries : queryLines f = queryLines g :=
    funext (queryLines_congr hname hinputs houtputs)
  have hsource : ∀ kernel, sourceLines options f kernel = sourceLines options g kernel := by
    intro kernel
    rw [sourceLines, sourceLines, shapes_congr hinputs houtputs, hdescription, hname, hqueries,
      mexLines_congr hname hinputs houtputs]
  simp only [generateCode, hname, hkernel, hsource]

end Congruence

end Code

end ExplicitOde
