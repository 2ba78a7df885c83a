import ExplicitOde.Proofs.Code.Alike
import ExplicitOde.Proofs.Grid
import ExplicitOde.Scalar.Double
import Mathlib.Data.Set.Function

/-!
# Code depends on structure only

The nodes of a function are a graph, and two functions have the same structure if there is a
bijection between their nodes that keeps operations, constants and operands, and that keeps the
places of outputs and of the inputs that are used. **Functions of the same structure, with the same
name and shapes, have the same code**, whatever the identities of their nodes and the names of their
symbols are: `generateCode_eq_of_sameStructure`.
-/

namespace ExplicitOde

open Relator (BiUnique)
open ExplicitOde.Expr

variable {α : Type}

/-- The second expression is a node like the first, on the images of its operands. -/
inductive Expr.SameNode (node : Expr α → Expr α) : Expr α → Expr α → Prop where
  | const {i j : Nat} {v : α} : SameNode node (.const i v) (.const j v)
  | symbol {i j : Nat} {s t : String} : SameNode node (.symbol i s) (.symbol j t)
  | unary {i j : Nat} {op : UnaryOp} {a : Expr α} :
      SameNode node (.unary i op a) (.unary j op (node a))
  | binary {i j : Nat} {op : BinaryOp} {a b : Expr α} :
      SameNode node (.binary i op a b) (.binary j op (node a) (node b))

namespace SymbolicFunction

/-- The nodes below the outputs of a function. -/
def nodes (f : SymbolicFunction α) : Set (Expr α) :=
  {x | ∃ e ∈ outputElements f.outputs, e.Reaches x}

/-- The element at a place of one of some matrices. -/
def elementAt? (ms : List (ExprMatrix α)) (index place : Nat) : Option (Expr α) :=
  ms[index]?.bind fun m => m.elements[place]?

/-- A function that was made, of full matrices of nodes of a pool. -/
structure MadeIn (pool : Pool α) (f : SymbolicFunction α) : Prop where
  made : make f.name f.inputs f.outputs = .ok f
  full : ∀ m ∈ f.inputs ++ f.outputs, m.grid.Full
  mem : ∀ m ∈ f.inputs ++ f.outputs, ∀ e ∈ m.elements, e ∈ pool

/-- A bijection between the nodes of two functions that keeps their structure. -/
structure SameStructure (f g : SymbolicFunction α) (node : Expr α → Expr α) : Prop where
  bijOn : Set.BijOn node f.nodes g.nodes
  sameNode : ∀ x ∈ f.nodes, x.SameNode node (node x)
  outputs : ∀ o k e, elementAt? f.outputs o k = some e →
    elementAt? g.outputs o k = some (node e)
  /-- Symbols that are used stand at the places of their images. -/
  inputs : ∀ i k e, e ∈ f.nodes → elementAt? f.inputs i k = some e →
    elementAt? g.inputs i k = some (node e)

/-! ## From nodes to identities -/

variable {pool pool' : Pool α} {f g : SymbolicFunction α} {node : Expr α → Expr α}

theorem operand_mem_nodes {x a : Expr α} (hx : x ∈ f.nodes) (ha : a ∈ x.operands) :
    a ∈ f.nodes := by
  obtain ⟨e, he, hreach⟩ := hx
  exact ⟨e, he, hreach.operand ha⟩

theorem MadeIn.nodes_mem (hf : f.MadeIn pool) {x : Expr α} (hx : x ∈ f.nodes) : x ∈ pool := by
  obtain ⟨e, he, hreach⟩ := hx
  obtain ⟨m, hm, he⟩ := List.mem_flatMap.mp he
  exact Pool.mem_of_reaches (hf.mem m (List.mem_append_right _ hm) e he) hreach

theorem MadeIn.accepted (hf : f.MadeIn pool) : Accepted f.inputs f.outputs := by
  have hmem : ∀ e ∈ outputElements f.outputs, e ∈ pool := by
    intro e he
    obtain ⟨m, hm, he⟩ := List.mem_flatMap.mp he
    exact hf.mem m (List.mem_append_right _ hm) e he
  exact (make_ok hmem hf.made).accepted

namespace SameStructure

/-- Identities of nodes that correspond. -/
def Ids (f : SymbolicFunction α) (node : Expr α → Expr α) (i j : Nat) : Prop :=
  ∃ x ∈ f.nodes, x.id = i ∧ (node x).id = j

/-- Nodes are told apart by their identities, and images by theirs. -/
theorem biUnique (h : SameStructure f g node) (hf : f.MadeIn pool) (hg : g.MadeIn pool') :
    BiUnique (Ids f node) := by
  constructor
  · rintro _ j _ ⟨x, hx, rfl, hj⟩ ⟨y, hy, rfl, rfl⟩
    have himage := pool'.eq_of_id (node x) (hg.nodes_mem (h.bijOn.mapsTo hx)) (node y)
      (hg.nodes_mem (h.bijOn.mapsTo hy)) hj
    rw [h.bijOn.injOn hx hy himage]
  · rintro i _ _ ⟨x, hx, rfl, rfl⟩ ⟨y, hy, hid, rfl⟩
    rw [pool.eq_of_id y (hf.nodes_mem hy) x (hf.nodes_mem hx) hid]

/-- Every node is alike to its image. -/
theorem alike (h : SameStructure f g node) {x : Expr α} (hx : x ∈ f.nodes) :
    x.Alike (Ids f node) (node x) := by
  induction x using operand_induction with
  | h x ih =>
    have hid : Ids f node x.id (node x).id := ⟨x, hx, rfl, rfl⟩
    have hnode := h.sameNode x hx
    have hops := fun a ha => ih a ha (operand_mem_nodes hx ha)
    generalize node x = y at hid hnode ⊢
    cases hnode with
    | const => exact .const hid
    | symbol => exact .symbol hid
    | unary => exact .unary hid (hops _ List.mem_cons_self)
    | binary =>
        exact .binary hid (hops _ List.mem_cons_self)
          (hops _ (List.mem_cons_of_mem _ List.mem_cons_self))

end SameStructure

/-! ## From shapes to elements -/

theorem elementAt?_eq_some {ms : List (ExprMatrix α)} {i k : Nat} {e : Expr α} :
    elementAt? ms i k = some e ↔ ∃ m, ms[i]? = some m ∧ m.elements[k]? = some e := by
  rw [elementAt?, Option.bind_eq_some_iff]

/-- Full matrices of one shape have equally many elements. -/
theorem sameShapes_of_full {ms ms' : List (ExprMatrix α)} (hfull : ∀ m ∈ ms, m.grid.Full)
    (hfull' : ∀ m ∈ ms', m.grid.Full)
    (h : ms.map ExprMatrix.shape = ms'.map ExprMatrix.shape) : SameShapes ms ms' := by
  rw [← List.forall₂_eq_eq_eq, List.forall₂_map_left_iff, List.forall₂_map_right_iff] at h
  induction h with
  | nil => exact .nil
  | @cons m m' _ _ hshape _ ih =>
      have hrows : m.grid.rows = m'.grid.rows := congrArg Prod.fst hshape
      have hcols : m.grid.cols = m'.grid.cols := congrArg Prod.snd hshape
      have hnumel : m.numel = m'.numel := by
        calc m.grid.cells.length = m.grid.rows * m.grid.cols := hfull m List.mem_cons_self
          _ = m'.grid.rows * m'.grid.cols := by rw [hrows, hcols]
          _ = m'.grid.cells.length := (hfull' m' List.mem_cons_self).symm
      exact .cons ⟨hshape, hnumel⟩ (ih (fun x hx => hfull x (List.mem_cons_of_mem m hx))
        fun x hx => hfull' x (List.mem_cons_of_mem m' hx))

/-- Outputs that correspond element by element are alike. -/
theorem SameStructure.outputs_alike (h : SameStructure f g node)
    (hshapes : SameShapes f.outputs g.outputs) :
    List.Forall₂ (fun m m' => List.Forall₂ (Expr.Alike (SameStructure.Ids f node)) m.elements
      m'.elements) f.outputs g.outputs := by
  refine List.forall₂_of_length_eq_of_get hshapes.length_eq fun o ho ho' => ?_
  have hm : f.outputs[o]? = some (f.outputs.get ⟨o, ho⟩) := List.getElem?_eq_getElem ho
  have hm' : g.outputs[o]? = some (g.outputs.get ⟨o, ho'⟩) := List.getElem?_eq_getElem ho'
  refine List.forall₂_of_length_eq_of_get (hshapes.get ho ho').numel fun k hk hk' => ?_
  have he := elementAt?_eq_some.mpr ⟨_, hm, List.getElem?_eq_getElem hk⟩
  have he' := elementAt?_eq_some.mpr ⟨_, hm', List.getElem?_eq_getElem hk'⟩
  have himage := (h.outputs o k _ he).symm.trans he'
  have halike := h.alike ⟨_, List.mem_flatMap.mpr
    ⟨_, List.mem_of_getElem? hm, List.getElem_mem hk⟩, .self _⟩
  rw [Option.some.inj himage] at halike
  exact halike

/-- A symbol that is used has the place of its image. -/
theorem SameStructure.exists_place (h : SameStructure f g node) (hf : f.MadeIn pool)
    (hg : g.MadeIn pool') {x : Expr α} (hx : x ∈ f.nodes) (hsymbol : x.isSymbol = true) :
    ∃ place, (Kernel.places f.inputs)[x.id]? = some place ∧
      (Kernel.places g.inputs)[(node x).id]? = some place := by
  obtain ⟨root, hroot, hreach⟩ := hx
  obtain ⟨y, hy, hid⟩ := List.mem_map.mp (hf.accepted.closed root hroot x hreach hsymbol)
  obtain ⟨m, hm, hym⟩ := List.mem_flatMap.mp hy
  -- the element of the input with the identity of the symbol is the symbol
  obtain rfl : y = x := pool.eq_of_id y (hf.mem m (List.mem_append_left _ hm) y hym) x
    (hf.nodes_mem ⟨root, hroot, hreach⟩) hid
  obtain ⟨i, hi⟩ := List.getElem?_of_mem hm
  obtain ⟨k, hk⟩ := List.getElem?_of_mem hym
  obtain ⟨m', hi', hk'⟩ := elementAt?_eq_some.mp
    (h.inputs i k y ⟨root, hroot, hreach⟩ (elementAt?_eq_some.mpr ⟨m, hi, hk⟩))
  exact ⟨(i, k), Kernel.getElem?_places hf.accepted hi hk,
    Kernel.getElem?_places hg.accepted hi' hk'⟩

/-- **Functions of the same structure, with the same name and shapes, have the same code.** -/
theorem generateCode_eq_of_sameStructure [Written α] (hf : f.MadeIn pool) (hg : g.MadeIn pool')
    (hname : f.name = g.name)
    (hinputs : f.inputs.map ExprMatrix.shape = g.inputs.map ExprMatrix.shape)
    (houtputs : f.outputs.map ExprMatrix.shape = g.outputs.map ExprMatrix.shape)
    (h : SameStructure f g node) (options : CodeOptions) :
    generateCode options f = generateCode options g := by
  have hin := sameShapes_of_full (fun m hm => hf.full m (List.mem_append_left _ hm))
    (fun m hm => hg.full m (List.mem_append_left _ hm)) hinputs
  have hout := sameShapes_of_full (fun m hm => hf.full m (List.mem_append_right _ hm))
    (fun m hm => hg.full m (List.mem_append_right _ hm)) houtputs
  have hρ := h.biUnique hf hg
  refine Code.generateCode_congr hname hin hout ?_ options
  refine Kernel.ofFunction_alike hρ (h.outputs_alike hout) fun e he e' halike hsymbol => ?_
  have hroots : ∀ e ∈ outputElements f.outputs, e ∈ pool :=
    fun e he => hf.nodes_mem ⟨e, he, .self e⟩
  have hnode : e ∈ f.nodes := (mem_evaluationOrder hroots e).mp he
  rw [← (eq_iff_of_biUnique hρ (h.alike hnode).id halike.id).mp rfl]
  exact h.exists_place hf hg hnode hsymbol

/-! The square of a number, with nodes and a symbol of our choice. -/

/-- The variable and its square. -/
def squareOf (n : Nat) (name : String) : Expr Float :=
  .binary (n + 1) .mul (.symbol n name) (.symbol n name)

/-- The function. -/
def squareFunction (n : Nat) (name : String) : SymbolicFunction Float :=
  ⟨"square", .sx, [ExprMatrix.column .sx [.symbol n name]],
    [ExprMatrix.column .sx [squareOf n name]]⟩

/-- These are all the nodes there are. -/
def squareNodes (n : Nat) (name : String) : Pool Float :=
  ((Pool.empty n).growSymbol name).grow (squareOf n name) rfl
    (List.forall_mem_cons.mpr
      ⟨Pool.mem_grow _ _, List.forall_mem_singleton.mpr (Pool.mem_grow _ _)⟩)

theorem mem_nodes_squareFunction {n : Nat} {name : String} {x : Expr Float} :
    x ∈ (squareFunction n name).nodes ↔ x = squareOf n name ∨ x = .symbol n name := by
  constructor
  · rintro ⟨e, he, hreach⟩
    obtain rfl := List.mem_singleton.mp he
    rcases hreach with _ | ⟨hop, hreach⟩
    · exact Or.inl rfl
    · obtain rfl : _ = Expr.symbol n name := by
        simpa only [squareOf, operands, List.mem_cons, List.not_mem_nil, or_false, or_self]
          using hop
      rcases hreach with _ | ⟨hop, _⟩
      · exact Or.inr rfl
      · exact absurd hop List.not_mem_nil
  · rintro (rfl | rfl)
    · exact ⟨_, List.mem_singleton_self _, .self _⟩
    · exact ⟨_, List.mem_singleton_self _, .through List.mem_cons_self (.self _)⟩

theorem squareFunction_madeIn (n : Nat) (name : String) :
    (squareFunction n name).MadeIn (squareNodes n name) where
  made := by
    refine make_of_accepted rfl ⟨List.forall_mem_singleton.mpr rfl, List.pairwise_singleton _ _, ?_⟩
    refine List.forall_mem_singleton.mpr fun x hreach hsymbol => ?_
    rcases mem_nodes_squareFunction.mp ⟨_, List.mem_singleton_self _, hreach⟩ with rfl | rfl
    · exact Bool.noConfusion hsymbol
    · exact List.mem_singleton_self n
  full := by
    rintro m (_ | ⟨_, _ | ⟨_, hm⟩⟩)
    · rfl
    · rfl
    · exact absurd hm List.not_mem_nil
  mem := by
    rintro m (_ | ⟨_, _ | ⟨_, hm⟩⟩)
    · exact List.forall_mem_singleton.mpr (Or.inr (Pool.mem_grow _ _))
    · exact List.forall_mem_singleton.mpr (Pool.mem_grow _ _)
    · exact absurd hm List.not_mem_nil

theorem elementAt?_single {kind : Kind} {a e : Expr α} {i k : Nat} :
    elementAt? [ExprMatrix.column kind [a]] i k = some e ↔ i = 0 ∧ k = 0 ∧ a = e := by
  cases i <;> cases k <;> simp [elementAt?, ExprMatrix.elements, ExprMatrix.column, Grid.column]

/-- The node of the other square that a node of the first one corresponds to. -/
def squareImage (e : Expr Float) : Expr Float :=
  if e.id = 0 then .symbol 5 "angle" else squareOf 5 "angle"

theorem squareFunction_sameStructure :
    SameStructure (squareFunction 0 "x") (squareFunction 5 "angle") squareImage := by
  have hnodes : ∀ x ∈ (squareFunction 0 "x").nodes,
      x = squareOf 0 "x" ∨ x = .symbol 0 "x" := fun x => mem_nodes_squareFunction.mp
  refine ⟨⟨?_, ?_, ?_⟩, ?_, ?_, ?_⟩
  · intro x hx
    rcases hnodes x hx with rfl | rfl
    · exact mem_nodes_squareFunction.mpr (Or.inl rfl)
    · exact mem_nodes_squareFunction.mpr (Or.inr rfl)
  · intro x hx y hy hxy
    rcases hnodes x hx with rfl | rfl <;> rcases hnodes y hy with rfl | rfl
    · rfl
    · exact nomatch (hxy : squareOf 5 "angle" = .symbol 5 "angle")
    · exact nomatch (hxy : .symbol 5 "angle" = squareOf 5 "angle")
    · rfl
  · intro y hy
    rcases mem_nodes_squareFunction.mp hy with rfl | rfl
    · exact ⟨_, mem_nodes_squareFunction.mpr (Or.inl rfl), rfl⟩
    · exact ⟨_, mem_nodes_squareFunction.mpr (Or.inr rfl), rfl⟩
  · intro x hx
    rcases hnodes x hx with rfl | rfl
    · exact .binary
    · exact .symbol
  · intro o k e he
    obtain ⟨rfl, rfl, rfl⟩ := elementAt?_single.mp he
    rfl
  · intro i k e _ he
    obtain ⟨rfl, rfl, rfl⟩ := elementAt?_single.mp he
    rfl

/-- The two squares have the same code. -/
theorem generateCode_eq_of_sameStructure_square :
    generateCode {} (squareFunction 0 "x") = generateCode {} (squareFunction 5 "angle") :=
  generateCode_eq_of_sameStructure (squareFunction_madeIn 0 "x") (squareFunction_madeIn 5 "angle")
    rfl rfl rfl squareFunction_sameStructure {}

end SymbolicFunction

end ExplicitOde
