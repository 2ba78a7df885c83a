import ExplicitOde.Proofs.Matrix.LowerTriangle
import ExplicitOde.Proofs.Model.Values

/-!
# Models that fit have functions

A model whose rates are over its states, controls and parameters, with as many rates as states,
passes all checks on the way to its functions. The matrices that are made on that way have no other
symbols than those that the functions are functions of.
-/

namespace ExplicitOde

open ExplicitOde.Expr ExprMatrix SymbolicFunction

variable {α : Type}

/-! ## New symbols -/

namespace ExprMatrix

/-- A matrix of new symbols consists of symbols with the next identities. -/
theorem symbols_run (kind : Kind) (name : String) (rows cols n : Nat) :
    ∃ names : List String, names.length = rows * cols ∧
      (symbols kind name rows cols : Build (ExprMatrix α)) n =
        (⟨kind, ⟨rows, cols, symbolsFrom n names⟩⟩, n + rows * cols) := by
  have hrun := mapM_mkSymbol (α := α)
    ((List.range (rows * cols)).map (symbolName name (rows * cols))) n
  rw [List.mapM_map, List.length_map, List.length_range] at hrun
  refine ⟨(List.range (rows * cols)).map (symbolName name (rows * cols)), ?_, ?_⟩
  · rw [List.length_map, List.length_range]
  · exact congrArg (fun run => ((⟨kind, ⟨rows, cols, run.1⟩⟩ : ExprMatrix α), run.2)) hrun

/-- What begins with a matrix of new symbols succeeds if it does so with any such matrix. -/
theorem exists_of_symbols {β ε : Type} {kind : Kind} {name : String} {rows cols n : Nat}
    {f : ExprMatrix α → Attempt ε β} {post : β → Prop}
    (h : ∀ m : ExprMatrix α, m.kind = kind →
      m.Proper kind (· ∈ m.elements.map Expr.id) rows cols →
      (∀ e ∈ m.elements, e.isSymbol = true) →
      m.elements.map Expr.id = List.range' n (rows * cols) →
      ∃ b, (f m (n + rows * cols)).1 = .ok b ∧ post b) :
    ∃ b, ((liftM (symbols kind name rows cols : Build (ExprMatrix α)) >>= f : Attempt ε β) n).1 =
      .ok b ∧ post b := by
  obtain ⟨names, hlength, hrun⟩ := symbols_run (α := α) kind name rows cols n
  have hsymbols := isSymbol_symbolsFrom (α := α) n names
  rw [lift_bind_run, hrun]
  refine h _ rfl ⟨Or.inl rfl, rfl, ?_, over_of_symbols hsymbols fun _ hi => hi⟩ hsymbols ?_
  · exact (length_symbolsFrom n names).trans hlength
  · exact hlength ▸ id_symbolsFrom n names

theorem Proper.imp {kind : Kind} {P Q : Nat → Prop} {rows cols : Nat} {m : ExprMatrix α}
    (h : m.Proper kind P rows cols) (hPQ : ∀ i, P i → Q i) : m.Proper kind Q rows cols :=
  ⟨h.kind, h.shape, h.full, fun e he => (h.isOver e he).imp hPQ⟩

end ExprMatrix

/-! ## The steps to the functions -/

section Steps

open ExprMatrix

variable [Scalar α] {kind : Kind} {P : Nat → Prop} {nx nu : Nat}
  {rate x u sx sp directions gradient xu hessian : ExprMatrix α}

theorem stateSensitivity_proper (hrate : rate.Proper kind P nx 1) (hx : x.Proper kind P nx 1)
    (hsymbols : ∀ e ∈ x.elements, e.isSymbol = true) (hsx : sx.Proper kind P nx nx) :
    Succeeds (stateSensitivity kind nx rate x sx) (Proper kind P nx nx) := by
  rw [stateSensitivity]
  refine (Succeeds.lift (zeros_proper kind P nx nx)).bind fun zero hzero => ?_
  exact (forwardDerivative_proper hrate hx hsymbols hsx).bind fun moved hmoved =>
    add_proper hzero hmoved

theorem controlSensitivity_proper (hrate : rate.Proper kind P nx 1) (hx : x.Proper kind P nx 1)
    (hu : u.Proper kind P nu 1) (hxSymbols : ∀ e ∈ x.elements, e.isSymbol = true)
    (huSymbols : ∀ e ∈ u.elements, e.isSymbol = true) (hsp : sp.Proper kind P nx nu) :
    Succeeds (controlSensitivity kind nx nu rate x u sp) (Proper kind P nx nu) := by
  rw [controlSensitivity]
  refine (Succeeds.lift (zeros_proper kind P nx nu)).bind fun zero hzero => ?_
  refine (jacobian_proper hrate hu huSymbols).bind fun direct hdirect => ?_
  refine (add_proper hzero hdirect).bind fun sum hsum => ?_
  exact (forwardDerivative_proper hrate hx hxSymbols hsp).bind fun moved hmoved =>
    add_proper hsum hmoved

theorem stackedDirections_proper (hsx : sx.Proper kind P nx nx) (hsp : sp.Proper kind P nx nu) :
    Succeeds (stackedDirections kind nx nu sx sp) (Proper kind P (nx + nu) (nx + nu)) := by
  obtain ⟨states, hrun, hstates⟩ := beside_proper hsx hsp
  rw [stackedDirections]
  refine Succeeds.check_bind hrun ?_
  refine (Succeeds.lift (zeros_proper kind P nu nx)).bind fun zero hzero => ?_
  refine (Succeeds.lift (identity_proper kind P nu)).bind fun one hone => ?_
  obtain ⟨controls, hrun', hcontrols⟩ := beside_proper hzero hone
  obtain ⟨m, hm, hproper⟩ := above_proper hstates hcontrols
  exact Succeeds.check_bind hrun' (Succeeds.check hm hproper)

theorem projectedHessian_proper {n : Nat} (hgradient : gradient.Proper kind P n 1)
    (hxu : xu.Proper kind P n 1) (hsymbols : ∀ e ∈ xu.elements, e.isSymbol = true)
    (hdirections : directions.Proper kind P n n) :
    Succeeds (projectedHessian directions gradient xu) (Proper kind P n n) :=
  (forwardDerivative_proper hgradient hxu hsymbols hdirections).bind fun _ hmoved =>
    mul_proper hdirections.transpose hmoved

theorem hessianColumn_proper {n : Nat} (h : hessian.Proper kind P n n) :
    Succeeds (hessianColumn kind n hessian) (Proper kind P (n * (n + 1) / 2) 1) := by
  rw [hessianColumn]
  by_cases hn : n = 0
  · rw [if_pos hn, hn]
    exact Succeeds.lift (zeros_proper kind P 0 1)
  · rw [if_neg hn]
    obtain ⟨t, ht, hproper⟩ := lowerTriangle_proper (Nat.pos_of_ne_zero hn) h
    exact Succeeds.check ht hproper

omit [Scalar α] in
/-- Columns of symbols, one above the other. -/
theorem above_symbols (hx : x.Proper kind P nx 1) (hu : u.Proper kind P nu 1)
    (hxSymbols : ∀ e ∈ x.elements, e.isSymbol = true)
    (huSymbols : ∀ e ∈ u.elements, e.isSymbol = true) :
    ∃ xu, above [x, u] = .ok xu ∧ xu.Proper kind P (nx + nu) 1 ∧
      ∀ e ∈ xu.elements, e.isSymbol = true := by
  obtain ⟨xu, hxu, hproper⟩ := above_proper hx hu
  have hparts : ∀ part ∈ [x, u], part.grid.Full ∧ part.grid.Narrow :=
    List.forall_mem_cons.mpr ⟨⟨hx.full, (numel_of_proper hx).trans hx.rows_eq.symm⟩,
      List.forall_mem_singleton.mpr ⟨hu.full, (numel_of_proper hu).trans hu.rows_eq.symm⟩⟩
  refine ⟨xu, hxu, hproper, ?_⟩
  rw [(elements_above hparts hxu).1]
  intro e he
  obtain ⟨part, hpart, hmem⟩ := List.mem_flatMap.mp he
  rcases List.mem_pair.mp hpart with rfl | rfl
  · exact hxSymbols e hmem
  · exact huSymbols e hmem

variable (kind) in
omit [Scalar α] in
/-- Proper matrices make a function of the inputs that they are over. -/
theorem make_succeeds {name : String} {inputs outputs : List (ExprMatrix α)}
    (hkinds : ∀ m ∈ inputs ++ outputs, m.kind = kind ∨ m.kind = .dm)
    (hkind : ∃ m ∈ inputs ++ outputs, m.kind = kind)
    (hsymbols : ∀ e ∈ inputElements inputs, e.isSymbol = true)
    (hdistinct : ((inputElements inputs).map Expr.id).Nodup)
    (hover : ∀ m ∈ outputs, ∀ e ∈ m.elements, e.Over (· ∈ (inputElements inputs).map Expr.id)) :
    make name inputs outputs = .ok ⟨name, kind, inputs, outputs⟩ ∧ Accepted inputs outputs := by
  have hkinds' : ∀ k ∈ (inputs ++ outputs).map ExprMatrix.kind, k = kind ∨ k = .dm := by
    intro k hk
    obtain ⟨m, hm, rfl⟩ := List.mem_map.mp hk
    exact hkinds m hm
  obtain ⟨k, hk, _, hmem⟩ := combineKinds_ok .function hkinds'
  obtain ⟨m, hm, hmkind⟩ := hkind
  obtain rfl := hmem (List.mem_map.mpr ⟨m, hm, hmkind⟩)
  have haccepted : Accepted inputs outputs := ⟨hsymbols, hdistinct, fun e he x hreach hsymbol =>
    over_iff.mp (forall_mem_outputElements.mpr hover e he) x hreach hsymbol⟩
  exact ⟨make_of_accepted hk haccepted, haccepted⟩

end Steps

/-! ## The way to the functions -/

namespace FunctionKind

/-- The inputs of a function, in their order. -/
def arguments {β : Type} (x sx sp lambda u p : β) : FunctionKind → List β
  | value => [x, u, p]
  | forward => [x, sx, sp, u, p]
  | adjoint => [x, lambda, u, p]
  | hessian => [x, sx, sp, lambda, u, p]

theorem map_arguments {β γ : Type} (f : β → γ) (k : FunctionKind) (x sx sp lambda u p : β) :
    (k.arguments x sx sp lambda u p).map f =
      k.arguments (f x) (f sx) (f sp) (f lambda) (f u) (f p) := by
  cases k <;> rfl

/-- The shapes of the outputs of a function of a model of `nx` states and `nu` controls. -/
def resultShapes (nx nu : Nat) : FunctionKind → List Shape
  | value => [(nx, 1)]
  | forward => [(nx, 1), (nx, nx), (nx, nu)]
  | adjoint => [(nx + nu, 1)]
  | hessian => [(nx + nu, 1), ((nx + nu) * (nx + nu + 1) / 2, 1)]

end FunctionKind

namespace Model

/-- The symbols that the rates of a model may depend on. -/
def IsInput (m : Model α) (i : Nat) : Prop :=
  i ∈ (inputElements [m.x, m.u, m.parameters]).map Expr.id

/-- A model that fits: as many rates as states, over distinct symbols that exist. -/
structure WellPosed (m : Model α) (representation : Representation) (nx nu next : Nat) : Prop where
  name : isIdentifier m.name = true
  kind : m.rate.kind = .ofRepresentation representation
  states : m.x.Proper (.ofRepresentation representation) m.IsInput nx 1
  controls : m.u.Proper (.ofRepresentation representation) m.IsInput nu 1
  rates : m.rate.Proper (.ofRepresentation representation) m.IsInput nx 1
  parameters : m.parameters.kind = .ofRepresentation representation ∨ m.parameters.kind = .dm
  /-- Parameters are symbols, or there are none. -/
  together : m.p = .symbolic m.parameters ∨ m.p = .separate []
  symbolic : ∀ e ∈ inputElements [m.x, m.u, m.parameters], e.isSymbol = true
  distinct : ((inputElements [m.x, m.u, m.parameters]).map Expr.id).Nodup
  old : ∀ i, m.IsInput i → i < next

theorem WellPosed.resolve [Scalar α] {m : Model α} {representation : Representation}
    {nx nu next : Nat} (h : m.WellPosed representation nx nu next) :
    ∃ resolved, m.resolve next = (.ok resolved, next) ∧ resolved.nx = nx ∧ resolved.nu = nu ∧
      resolved.representation = representation ∧
      (resolved.p.kind = .ofRepresentation representation ∨ resolved.p.kind = .dm) ∧
      resolved.p.grid = m.parameters.grid := by
  have hkind : m.rate.kind.representation? = some representation := by
    rw [h.kind]
    cases representation <;> rfl
  rw [Model.resolve, h.name, hkind]
  rcases h.together with hp | hp
  · rw [hp]
    exact ⟨_, rfl, h.states.rows_eq, h.controls.rows_eq, rfl, h.parameters, rfl⟩
  · rw [hp]
    refine ⟨_, rfl, h.states.rows_eq, h.controls.rows_eq, rfl, Or.inl rfl, ?_⟩
    rw [Model.parameters, hp]
    rfl

section Functions

variable [Scalar α] {m : Model α} {representation : Representation} {nx nu next : Nat}
  {p sx sp lambda : ExprMatrix α}

/-- The identities of the inputs of the second-order function are distinct, if the new symbols come
after the old ones. -/
theorem distinct_hessian {xs us ps : List Nat} {next a b c : Nat} (h : (xs ++ (us ++ ps)).Nodup)
    (hold : ∀ i ∈ xs ++ (us ++ ps), i < next) :
    (xs ++ (List.range' next a ++ (List.range' (next + a) b ++
      (List.range' (next + a + b) c ++ (us ++ ps))))).Nodup := by
  have hnew : (List.range' next (a + b + c)).Nodup := List.nodup_range'
  have hboth : ((xs ++ (us ++ ps)) ++ List.range' next (a + b + c)).Nodup := by
    refine List.nodup_append.mpr ⟨h, hnew, fun i hi j hj => ?_⟩
    have hi' := hold i hi
    rw [List.mem_range'_1] at hj
    omega
  refine (List.Perm.nodup_iff (List.perm_iff_count.mpr fun i => ?_)).mp hboth
  rw [← List.range'_append_1, ← List.range'_append_1]
  simp only [List.count_append, Nat.add_assoc]
  omega

/-- All inputs of the functions of a model. -/
def functionInputs (m : Model α) (p sx sp lambda : ExprMatrix α) : List (ExprMatrix α) :=
  [m.x, sx, sp, lambda, m.u, p]

/-- The functions of a model of `nx` states and `nu` controls, as their callers expect them. -/
structure Typed (m : Model α) (kind : Kind) (nx nu : Nat)
    (s : Sensitivities (SymbolicFunction α)) : Prop where
  names : ∀ k, (s.get k).name = k.functionName m.name
  kinds : ∀ k, (s.get k).kind = kind
  inputs : ∃ p sx sp lambda : ExprMatrix α, p.grid = m.parameters.grid ∧
    ∀ k, (s.get k).inputs = k.arguments m.x sx sp lambda m.u p
  inputShapes : ∀ k, (s.get k).inputs.map ExprMatrix.shape =
    k.arguments (nx, 1) (nx, nx) (nx, nu) (nx, 1) (nu, 1) m.parameters.shape
  outputShapes : ∀ k, (s.get k).outputs.map ExprMatrix.shape = k.resultShapes nx nu
  /-- The value is the rates themselves. -/
  rates : s.value.outputs = [m.rate]
  accepted : ∀ k, Accepted (s.get k).inputs (s.get k).outputs

/-- The inputs of the functions of a model are symbols, no two of them the same. -/
structure Fresh (m : Model α) (kind : Kind) (nx nu : Nat) (p sx sp lambda : ExprMatrix α) :
    Prop where
  kinds : ∀ input ∈ m.functionInputs p sx sp lambda, input.kind = kind ∨ input.kind = .dm
  symbols : ∀ input ∈ m.functionInputs p sx sp lambda, ∀ e ∈ input.elements, e.isSymbol = true
  distinct : ((inputElements (m.functionInputs p sx sp lambda)).map Expr.id).Nodup
  given : ∀ i, m.IsInput i ↔ i ∈ (inputElements [m.x, m.u, p]).map Expr.id
  stateDirections : sx.Proper kind (· ∈ sx.elements.map Expr.id) nx nx
  controlDirections : sp.Proper kind (· ∈ sp.elements.map Expr.id) nx nu
  weights : lambda.Proper kind (· ∈ lambda.elements.map Expr.id) nx 1
  /-- The weights are symbolic, even if there are none. -/
  weighted : lambda.kind = kind

omit [Scalar α] in
/-- New symbols beside those of a model that fits. -/
theorem WellPosed.fresh (h : m.WellPosed representation nx nu next)
    (hkind : p.kind = .ofRepresentation representation ∨ p.kind = .dm)
    (hp : p.elements = m.parameters.elements)
    (hsx : sx.Proper (.ofRepresentation representation) (· ∈ sx.elements.map Expr.id) nx nx)
    (hsp : sp.Proper (.ofRepresentation representation) (· ∈ sp.elements.map Expr.id) nx nu)
    (hlambda : lambda.Proper (.ofRepresentation representation)
      (· ∈ lambda.elements.map Expr.id) nx 1)
    (hweighted : lambda.kind = .ofRepresentation representation)
    (hsymbols : ∀ input ∈ [sx, sp, lambda], ∀ e ∈ input.elements, e.isSymbol = true)
    {a b c : Nat} (hsxIds : sx.elements.map Expr.id = List.range' next a)
    (hspIds : sp.elements.map Expr.id = List.range' (next + a) b)
    (hlambdaIds : lambda.elements.map Expr.id = List.range' (next + a + b) c) :
    m.Fresh (.ofRepresentation representation) nx nu p sx sp lambda := by
  have hinputs : inputElements [m.x, m.u, p] = inputElements [m.x, m.u, m.parameters] := by
    simp only [inputElements, List.flatMap_cons, hp]
  refine ⟨?_, ?_, ?_, ?_, hsx, hsp, hlambda, hweighted⟩
  · simp only [functionInputs, List.forall_mem_cons, List.not_mem_nil, false_implies, implies_true,
      and_true]
    exact ⟨h.states.kind, hsx.kind, hsp.kind, hlambda.kind, h.controls.kind, hkind⟩
  · have hgiven := forall_mem_inputElements.mp (hinputs ▸ h.symbolic)
    simp only [functionInputs, List.forall_mem_cons] at hgiven hsymbols ⊢
    exact ⟨hgiven.1, hsymbols.1, hsymbols.2.1, hsymbols.2.2.1, hgiven.2⟩
  · -- new identities follow each other, and all that there are already lie below them
    have hgiven := h.distinct
    have hold := h.old
    unfold IsInput at hold
    rw [← hinputs] at hgiven hold
    simp only [functionInputs, inputElements, List.flatMap_cons, List.map_append, hsxIds, hspIds,
      hlambdaIds] at hgiven hold ⊢
    exact distinct_hessian hgiven hold
  · intro i
    rw [IsInput, hinputs]

variable {kind : Kind}

omit [Scalar α] in
theorem arguments_sublist (m : Model α) (p sx sp lambda : ExprMatrix α) (k : FunctionKind) :
    (k.arguments m.x sx sp lambda m.u p).Sublist (m.functionInputs p sx sp lambda) := by
  cases k with
  | value => exact .cons_cons _ (.cons _ (.cons _ (.cons _ (.refl _))))
  | forward => exact .cons_cons _ (.cons_cons _ (.cons_cons _ (.cons _ (.refl _))))
  | adjoint => exact .cons_cons _ (.cons _ (.cons _ (.refl _)))
  | hessian => exact .refl _

omit [Scalar α] in
/-- What is over the symbols of a model is over the inputs of each of its functions. -/
theorem Fresh.proper (h : m.Fresh kind nx nu p sx sp lambda) (k : FunctionKind) {rows cols : Nat}
    {matrix : ExprMatrix α} (hproper : matrix.Proper kind m.IsInput rows cols) :
    matrix.Proper kind
      (· ∈ (inputElements (k.arguments m.x sx sp lambda m.u p)).map Expr.id) rows cols := by
  have hinputs : ∀ input ∈ [m.x, m.u, p], input ∈ k.arguments m.x sx sp lambda m.u p := by
    cases k <;> simp [FunctionKind.arguments]
  exact hproper.imp fun i hi => mem_ids_of_subset hinputs i ((h.given i).mp hi)

omit [Scalar α] in
/-- A function of a model is made of matrices over its inputs. -/
theorem Fresh.make (h : m.Fresh kind nx nu p sx sp lambda) (k : FunctionKind)
    {outputs : List (ExprMatrix α)}
    (houtputs : ∀ output ∈ outputs, ∃ rows cols, output.Proper kind
      (· ∈ (inputElements (k.arguments m.x sx sp lambda m.u p)).map Expr.id) rows cols)
    (hkind : ∃ part ∈ k.arguments m.x sx sp lambda m.u p ++ outputs, part.kind = kind) :
    SymbolicFunction.make (k.functionName m.name) (k.arguments m.x sx sp lambda m.u p) outputs =
        .ok ⟨k.functionName m.name, kind, k.arguments m.x sx sp lambda m.u p, outputs⟩ ∧
      Accepted (k.arguments m.x sx sp lambda m.u p) outputs := by
  have hinputs := arguments_sublist m p sx sp lambda k
  refine make_succeeds kind (fun part hpart => ?_) hkind ?_ ?_ fun output houtput => ?_
  · rcases List.mem_append.mp hpart with hpart | hpart
    · exact h.kinds part (hinputs.subset hpart)
    · obtain ⟨_, _, hproper⟩ := houtputs part hpart
      exact hproper.kind
  · exact forall_mem_inputElements.mpr fun input hinput =>
      h.symbols input (hinputs.subset hinput)
  · exact h.distinct.sublist ((hinputs.flatMap _).map _)
  · obtain ⟨_, _, hproper⟩ := houtputs output houtput
    exact hproper.isOver

omit [Scalar α] in
/-- Functions with the inputs and outputs of a model are as their callers expect them. -/
theorem Fresh.typed (h : m.Fresh kind nx nu p sx sp lambda) (hgrid : p.grid = m.parameters.grid)
    (hx : m.x.shape = (nx, 1)) (hu : m.u.shape = (nu, 1))
    (outputs : FunctionKind → List (ExprMatrix α)) (hrates : outputs .value = [m.rate])
    (hshapes : ∀ k, (outputs k).map ExprMatrix.shape = k.resultShapes nx nu)
    (haccepted : ∀ k : FunctionKind, Accepted (k.arguments m.x sx sp lambda m.u p) (outputs k))
    {s : Sensitivities (SymbolicFunction α)}
    (hs : ∀ k, s.get k =
      ⟨k.functionName m.name, kind, k.arguments m.x sx sp lambda m.u p, outputs k⟩) :
    m.Typed kind nx nu s where
  names k := by rw [hs]
  kinds k := by rw [hs]
  inputs := ⟨p, sx, sp, lambda, hgrid, fun k => by rw [hs]⟩
  inputShapes k := by
    rw [hs, FunctionKind.map_arguments, hx, h.stateDirections.shape, h.controlDirections.shape,
      h.weights.shape, hu]
    exact congrArg (k.arguments _ _ _ _ _) (congrArg Grid.shape hgrid)
  outputShapes k := by rw [hs, hshapes]
  rates := (congrArg SymbolicFunction.outputs (hs .value)).trans hrates
  accepted k := by
    rw [hs]
    exact haccepted k

/-! Each of the functions is built in its turn, of what the earlier ones have left. -/

section Turns

variable {β : Type} {post : β → Prop}

/-- The forward sensitivities can be built, and what follows succeeds if it does so with any. -/
theorem WellPosed.forward_bind (h : m.WellPosed representation nx nu next)
    (hfresh : m.Fresh (.ofRepresentation representation) nx nu p sx sp lambda)
    {f : SymbolicFunction α → Attempt AlgebraError β}
    (hf : ∀ byState byControl : ExprMatrix α,
      byState.shape = (nx, nx) → byControl.shape = (nx, nu) →
      Accepted [m.x, sx, sp, m.u, p] [m.rate, byState, byControl] →
      Succeeds (f ⟨FunctionKind.forward.functionName m.name, .ofRepresentation representation,
        [m.x, sx, sp, m.u, p], [m.rate, byState, byControl]⟩) post) :
    Succeeds (do
      let byState ← stateSensitivity (.ofRepresentation representation) nx m.rate m.x sx
      let byControl ← controlSensitivity (.ofRepresentation representation) nx nu m.rate m.x m.u sp
      let forward ← SymbolicFunction.make (FunctionKind.forward.functionName m.name)
        [m.x, sx, sp, m.u, p] [m.rate, byState, byControl]
      f forward : Attempt AlgebraError β) post := by
  have hrate := hfresh.proper .forward h.rates
  have hx := hfresh.proper .forward h.states
  have hu := hfresh.proper .forward h.controls
  have hxSymbols := hfresh.symbols m.x (by simp [functionInputs])
  have huSymbols := hfresh.symbols m.u (by simp [functionInputs])
  have hsx := hfresh.stateDirections.imp
    (mem_ids_of_mem (by simp : sx ∈ [m.x, sx, sp, m.u, p]))
  have hsp := hfresh.controlDirections.imp
    (mem_ids_of_mem (by simp : sp ∈ [m.x, sx, sp, m.u, p]))
  refine (stateSensitivity_proper hrate hx hxSymbols hsx).bind fun byState hbyState => ?_
  refine (controlSensitivity_proper hrate hx hu hxSymbols huSymbols hsp).bind
    fun byControl hbyControl => ?_
  obtain ⟨hforward, haccepted⟩ := hfresh.make .forward
    (List.forall_mem_cons.mpr ⟨⟨_, _, hrate⟩, List.forall_mem_cons.mpr
      ⟨⟨_, _, hbyState⟩, List.forall_mem_singleton.mpr ⟨_, _, hbyControl⟩⟩⟩)
    ⟨m.rate, by simp, h.kind⟩
  exact Succeeds.check_bind hforward
    (hf byState byControl hbyState.shape hbyControl.shape haccepted)

/-- The adjoint sensitivities can be built, by states and controls in one column. -/
theorem WellPosed.adjoint_bind (h : m.WellPosed representation nx nu next)
    (hfresh : m.Fresh (.ofRepresentation representation) nx nu p sx sp lambda)
    {f : ExprMatrix α → ExprMatrix α → SymbolicFunction α → Attempt AlgebraError β}
    (hf : ∀ xu gradient : ExprMatrix α,
      xu.Proper (.ofRepresentation representation)
        (· ∈ (inputElements [m.x, lambda, m.u, p]).map Expr.id) (nx + nu) 1 →
      (∀ e ∈ xu.elements, e.isSymbol = true) →
      gradient.Proper (.ofRepresentation representation)
        (· ∈ (inputElements [m.x, lambda, m.u, p]).map Expr.id) (nx + nu) 1 →
      Accepted [m.x, lambda, m.u, p] [gradient] →
      Succeeds (f xu gradient ⟨FunctionKind.adjoint.functionName m.name,
        .ofRepresentation representation, [m.x, lambda, m.u, p], [gradient]⟩) post) :
    Succeeds (do
      let xu ← above [m.x, m.u]
      let gradient ← m.rate.reverseDerivative xu lambda
      let adjoint ← SymbolicFunction.make (FunctionKind.adjoint.functionName m.name)
        [m.x, lambda, m.u, p] [gradient]
      f xu gradient adjoint : Attempt AlgebraError β) post := by
  have hlambda := hfresh.weights.imp
    (mem_ids_of_mem (by simp : lambda ∈ [m.x, lambda, m.u, p]))
  obtain ⟨xu, hrun, hxu, hsymbols⟩ := above_symbols (hfresh.proper .adjoint h.states)
    (hfresh.proper .adjoint h.controls) (hfresh.symbols m.x (by simp [functionInputs]))
    (hfresh.symbols m.u (by simp [functionInputs]))
  refine Succeeds.check_bind hrun ?_
  refine (reverseDerivative_proper (hfresh.proper .adjoint h.rates) hxu hsymbols hlambda).bind
    fun gradient hgradient => ?_
  obtain ⟨hadjoint, haccepted⟩ := hfresh.make .adjoint
    (List.forall_mem_singleton.mpr ⟨_, _, hgradient⟩)
    ⟨lambda, by simp [FunctionKind.arguments], hfresh.weighted⟩
  exact Succeeds.check_bind hadjoint (hf xu gradient hxu hsymbols hgradient haccepted)

/-- The second-order sensitivities can be built. Their function has the inputs of all others. -/
theorem Fresh.hessian_bind (h : m.Fresh kind nx nu p sx sp lambda) {xu gradient : ExprMatrix α}
    (hxu : xu.Proper kind (· ∈ (inputElements [m.x, lambda, m.u, p]).map Expr.id) (nx + nu) 1)
    (hsymbols : ∀ e ∈ xu.elements, e.isSymbol = true)
    (hgradient : gradient.Proper kind
      (· ∈ (inputElements [m.x, lambda, m.u, p]).map Expr.id) (nx + nu) 1)
    {f : SymbolicFunction α → Attempt AlgebraError β}
    (hf : ∀ column : ExprMatrix α, column.shape = ((nx + nu) * (nx + nu + 1) / 2, 1) →
      Accepted [m.x, sx, sp, lambda, m.u, p] [gradient, column] →
      Succeeds (f ⟨FunctionKind.hessian.functionName m.name, kind,
        [m.x, sx, sp, lambda, m.u, p], [gradient, column]⟩) post) :
    Succeeds (do
      let directions ← stackedDirections kind nx nu sx sp
      let projected ← projectedHessian directions gradient xu
      let column ← hessianColumn kind (nx + nu) projected
      let hessian ← SymbolicFunction.make (FunctionKind.hessian.functionName m.name)
        [m.x, sx, sp, lambda, m.u, p] [gradient, column]
      f hessian : Attempt AlgebraError β) post := by
  have hsx := h.stateDirections.imp
    (mem_ids_of_mem (by simp : sx ∈ [m.x, sx, sp, lambda, m.u, p]))
  have hsp := h.controlDirections.imp
    (mem_ids_of_mem (by simp : sp ∈ [m.x, sx, sp, lambda, m.u, p]))
  have hsubset := mem_ids_of_subset fun _ hi =>
    (arguments_sublist m p sx sp lambda .adjoint).subset hi
  have hgradient := hgradient.imp hsubset
  refine (stackedDirections_proper hsx hsp).bind fun directions hdirections => ?_
  refine (projectedHessian_proper hgradient (hxu.imp hsubset) hsymbols hdirections).bind
    fun projected hprojected => ?_
  refine (hessianColumn_proper hprojected).bind fun column hcolumn => ?_
  obtain ⟨hhessian, haccepted⟩ := h.make .hessian (List.forall_mem_cons.mpr
      ⟨⟨_, _, hgradient⟩, List.forall_mem_singleton.mpr ⟨_, _, hcolumn⟩⟩)
    ⟨lambda, by simp [FunctionKind.arguments], h.weighted⟩
  exact Succeeds.check_bind hhessian (hf column hcolumn.shape haccepted)

end Turns

/-- A model that fits has functions. -/
theorem WellPosed.buildFunctions (h : m.WellPosed representation nx nu next)
    {resolved : ResolvedModel α} (hnx : resolved.nx = nx) (hnu : resolved.nu = nu)
    (hrepresentation : resolved.representation = representation)
    (hkind : resolved.p.kind = .ofRepresentation representation ∨ resolved.p.kind = .dm)
    (hgrid : resolved.p.grid = m.parameters.grid) :
    ∃ s, (ExplicitOde.buildFunctions m resolved next).1 = .ok s ∧
      m.Typed (.ofRepresentation representation) nx nu s := by
  unfold ExplicitOde.buildFunctions
  dsimp only
  rw [hnx, hnu, hrepresentation]
  refine ExprMatrix.exists_of_symbols fun sx _ hsx hsxSymbols hsxIds => ?_
  refine ExprMatrix.exists_of_symbols fun sp _ hsp hspSymbols hspIds => ?_
  refine ExprMatrix.exists_of_symbols fun lambda hweighted hlambda hlambdaSymbols hlambdaIds => ?_
  generalize resolved.p = p at hkind hgrid ⊢
  have hsymbols : ∀ input ∈ [sx, sp, lambda], ∀ e ∈ input.elements, e.isSymbol = true := by
    simpa only [List.forall_mem_cons, List.not_mem_nil, false_implies, implies_true, and_true]
      using ⟨hsxSymbols, hspSymbols, hlambdaSymbols⟩
  have hfresh := h.fresh hkind (congrArg Grid.cells hgrid) hsx hsp hlambda hweighted hsymbols
    hsxIds hspIds hlambdaIds
  -- from here on it does not matter which identities come next
  suffices hsucceeds : Succeeds _ (m.Typed (.ofRepresentation representation) nx nu) from
    hsucceeds _
  obtain ⟨hvalue, hvalueAccepted⟩ := hfresh.make .value
    (List.forall_mem_singleton.mpr ⟨_, _, hfresh.proper .value h.rates⟩)
    ⟨m.rate, by simp, h.kind⟩
  refine Succeeds.check_bind hvalue ?_
  refine h.forward_bind hfresh fun byState byControl hbyState hbyControl hforward => ?_
  refine h.adjoint_bind hfresh fun xu gradient hxu hxuSymbols hgradient hadjoint => ?_
  refine hfresh.hessian_bind hxu hxuSymbols hgradient fun column hcolumn hhessian =>
    Succeeds.pure ?_
  let outputs : FunctionKind → List (ExprMatrix α)
    | .value => [m.rate]
    | .forward => [m.rate, byState, byControl]
    | .adjoint => [gradient]
    | .hessian => [gradient, column]
  refine hfresh.typed hgrid h.states.shape h.controls.shape outputs rfl (fun k => ?_) (fun k => ?_)
    fun k => by cases k <;> rfl
  · cases k with
    | value => exact congrArg (· :: []) h.rates.shape
    | forward =>
        exact congrArg₂ List.cons h.rates.shape
          (congrArg₂ List.cons hbyState (congrArg (· :: []) hbyControl))
    | adjoint => exact congrArg (· :: []) hgradient.shape
    | hessian => exact congrArg₂ List.cons hgradient.shape (congrArg (· :: []) hcolumn)
  · cases k with
    | value => exact hvalueAccepted
    | forward => exact hforward
    | adjoint => exact hadjoint
    | hessian => exact hhessian

/-- **A model that fits has functions with the expected inputs and outputs.** -/
theorem WellPosed.exists_typed (h : m.WellPosed representation nx nu next) :
    ∃ s, (m.sensitivities next).1 = .ok s ∧ m.Typed (.ofRepresentation representation) nx nu s := by
  obtain ⟨resolved, hrun, hnx, hnu, hrepresentation, hkind, hgrid⟩ := h.resolve
  obtain ⟨s, hs, htyped⟩ := h.buildFunctions hnx hnu hrepresentation hkind hgrid
  refine ⟨s, ?_, htyped⟩
  rw [Model.sensitivities, bind_run hrun]
  exact adapt_run ModelError.algebra hs

/-- **A model that fits has sensitivities.** -/
theorem WellPosed.sensitivities (h : m.WellPosed representation nx nu next) :
    ∃ s, (m.sensitivities next).1 = .ok s :=
  h.exists_typed.imp fun _ hs => hs.1

end Functions

/-! A model of one state and one control, the derivative of the state being their product. -/

/-- The symbols of the state and of the control, and their product. -/
def bilinear : Model ℚ where
  name := "bilinear"
  x := ExprMatrix.column .sx [symbol 0 "x"]
  u := ExprMatrix.column .sx [symbol 1 "u"]
  p := .separate []
  rate := ExprMatrix.column .sx [binary 2 .mul (symbol 0 "x") (symbol 1 "u")]

/-- These are all the nodes there are. -/
def bilinearPool : Pool ℚ :=
  (((Pool.empty 0).growSymbol "x").growSymbol "u").grow
    (binary 2 .mul (symbol 0 "x") (symbol 1 "u")) rfl (by
      refine List.forall_mem_cons.mpr ⟨?_, List.forall_mem_singleton.mpr (Pool.mem_grow _ _)⟩
      exact Pool.mem_of_le (Pool.le_grow _ _) (Pool.mem_grow _ _))

theorem bilinear_formed : bilinear.Formed bilinearPool where
  states := rfl
  controls := rfl
  mem := List.forall_mem_singleton.mpr (Pool.mem_grow _ _)

theorem bilinear_wellPosed : bilinear.WellPosed .sx 1 1 bilinearPool.next where
  name := by decide
  kind := rfl
  states := ⟨Or.inl rfl, rfl, rfl, List.forall_mem_singleton.mpr List.mem_cons_self⟩
  controls := ⟨Or.inl rfl, rfl, rfl,
    List.forall_mem_singleton.mpr (List.mem_cons_of_mem 0 List.mem_cons_self)⟩
  rates := ⟨Or.inl rfl, rfl, rfl, List.forall_mem_singleton.mpr
    ⟨List.mem_cons_self, List.mem_cons_of_mem 0 List.mem_cons_self⟩⟩
  parameters := Or.inr rfl
  together := Or.inr rfl
  symbolic := by decide
  distinct := by decide
  old i hi := by
    have h : i ∈ [0, 1] := hi
    have hnext : bilinearPool.next = 3 := rfl
    rw [List.mem_pair] at h
    omega

end Model

end ExplicitOde
