import ExplicitOde.Proofs.Matrix.Closure
import ExplicitOde.Proofs.Model.Success

/-!
# The functions of a model are accepted functions

Whatever a model looks like, if it has functions at all they bind no symbol twice and have no free
symbols. The value has been checked; the other functions are made of the rates and of their own
inputs, so that nothing can be free in them.
-/

namespace ExplicitOde

open ExplicitOde.Expr ExprMatrix SymbolicFunction

variable {α : Type}

/-- What is made over its inputs is accepted, wherever its nodes come from. -/
theorem SymbolicFunction.make_ok_of_over {name : String} {inputs outputs : List (ExprMatrix α)}
    {f : SymbolicFunction α}
    (hover : ∀ m ∈ outputs, ∀ e ∈ m.elements, e.Over (· ∈ (inputElements inputs).map Expr.id))
    (h : make name inputs outputs = .ok f) : f.MadeOf name inputs outputs := by
  obtain ⟨kind, known, _, hknown, _, rfl⟩ := make_cases h
  obtain ⟨hsymbolic, hdistinct, _, _⟩ := inputSymbols_ok hknown
  refine ⟨rfl, rfl, rfl, hsymbolic, hdistinct, fun e he x hreach hsymbol => ?_⟩
  exact over_iff.mp (forall_mem_outputElements.mpr hover e he) x hreach hsymbol

theorem ExprMatrix.isSymbol_symbols (kind : Kind) (name : String) (rows cols : Nat) :
    Always (symbols kind name rows cols : Build (ExprMatrix α))
      fun m => ∀ e ∈ m.elements, e.isSymbol = true := by
  intro n
  obtain ⟨names, _, hrun⟩ := symbols_run (α := α) kind name rows cols n
  rw [hrun]
  exact isSymbol_symbolsFrom n names

/-! ## The symbols of what is built -/

section Steps

variable [Scalar α] {P : Kind → Nat → Prop} {kind : Kind} {nx nu : Nat}
  {rate x u sx sp directions gradient xu hessian : ExprMatrix α}
  (hdm : ∀ k i, P .dm i → P k i)

include hdm

theorem stateSensitivity_keeps (hrate : rate.Keeps P) (hsx : sx.Keeps P) :
    OnSuccess (stateSensitivity kind nx rate x sx) (Keeps P) := by
  rw [stateSensitivity]
  refine (OnSuccess.lift (zeros_keeps (P := P) _ _ _)).bind fun zero hzero => ?_
  refine (forwardDerivative_keeps hdm hrate hsx).bind fun moved hmoved => ?_
  exact add_keeps hdm hzero hmoved

theorem controlSensitivity_keeps (hrate : rate.Keeps P) (hsp : sp.Keeps P) :
    OnSuccess (controlSensitivity kind nx nu rate x u sp) (Keeps P) := by
  rw [controlSensitivity]
  refine (OnSuccess.lift (zeros_keeps (P := P) _ _ _)).bind fun zero hzero => ?_
  refine (jacobian_keeps hdm hrate).bind fun direct hdirect => ?_
  refine (add_keeps hdm hzero hdirect).bind fun sum hsum => ?_
  refine (forwardDerivative_keeps hdm hrate hsp).bind fun moved hmoved => ?_
  exact add_keeps hdm hsum hmoved

theorem stackedDirections_keeps (hsx : sx.Keeps P) (hsp : sp.Keeps P) :
    OnSuccess (stackedDirections kind nx nu sx sp) (Keeps P) := by
  rw [stackedDirections]
  refine .check_bind fun states hstates => ?_
  refine (OnSuccess.lift (zeros_keeps (P := P) _ _ _)).bind fun zero hzero => ?_
  refine (OnSuccess.lift (identity_keeps (P := P) _ _)).bind fun one hone => ?_
  refine .check_bind fun controls hcontrols => .check fun m hm => ?_
  have hpair : ∀ {a b : ExprMatrix α}, a.Keeps P → b.Keeps P → ∀ part ∈ [a, b], part.Keeps P :=
    fun ha hb => List.forall_mem_cons.mpr ⟨ha, List.forall_mem_singleton.mpr hb⟩
  exact above_keeps hdm (hpair (beside_keeps hdm (hpair hsx hsp) hstates)
    (beside_keeps hdm (hpair hzero hone) hcontrols)) hm

theorem projectedHessian_keeps (hdirections : directions.Keeps P) (hgradient : gradient.Keeps P) :
    OnSuccess (projectedHessian directions gradient xu) (Keeps P) := by
  rw [projectedHessian]
  refine (forwardDerivative_keeps hdm hgradient hdirections).bind fun moved hmoved => ?_
  exact mul_keeps hdm (transpose_keeps hdirections) hmoved

theorem hessianColumn_keeps {n : Nat} (h : hessian.Keeps P) :
    OnSuccess (hessianColumn kind n hessian) (Keeps P) := by
  rw [hessianColumn]
  split
  · exact .lift (zeros_keeps _ _ _)
  · exact .check fun m hm => lowerTriangle_keeps hdm h hm

end Steps

/-! ## The functions -/

namespace Model

/-- The function of a kind has its name and is accepted. -/
def Proper (m : Model α) (s : Sensitivities (SymbolicFunction α)) : Prop :=
  ∀ k, (s.get k).name = k.functionName m.name ∧ Accepted (s.get k).inputs (s.get k).outputs

/-- The symbols that a function of a model may depend on, whatever the kind of matrices. -/
def IsInputOf (m : Model α) (p sx sp lambda : ExprMatrix α) (k : FunctionKind) (_ : Kind)
    (i : Nat) : Prop :=
  i ∈ (inputElements (k.arguments m.x sx sp lambda m.u p)).map Expr.id

variable {m : Model α} {p sx sp lambda : ExprMatrix α} {k : FunctionKind}

theorem keeps_input {input : ExprMatrix α} (hsymbols : ∀ e ∈ input.elements, e.isSymbol = true)
    (hmem : input ∈ k.arguments m.x sx sp lambda m.u p) :
    input.Keeps (m.IsInputOf p sx sp lambda k) :=
  over_of_symbols hsymbols (mem_ids_of_mem hmem)

/-- The rates are over the inputs of every function, as they are over those of the value. -/
theorem keeps_rate (h : Accepted [m.x, m.u, p] [m.rate]) (k : FunctionKind) :
    m.rate.Keeps (m.IsInputOf p sx sp lambda k) := by
  intro e he
  refine over_iff.mpr fun x hreach hsymbol => mem_ids_of_subset ?_ x.id
    (h.closed e (List.mem_flatMap.mpr ⟨_, List.mem_singleton_self _, he⟩) x hreach hsymbol)
  cases k <;> simp [FunctionKind.arguments]

variable [Scalar α] {pool : Pool α}

/-- **The functions that are built for a model are accepted.** -/
theorem buildFunctions_proper {r : ResolvedModel α} (hrate : ∀ e ∈ m.rate.elements, e ∈ pool) :
    OnSuccess (buildFunctions m r) m.Proper := by
  rw [buildFunctions]
  refine (OnSuccess.lift (isSymbol_symbols _ _ _ _)).bind fun sx hsx => ?_
  refine (OnSuccess.lift (isSymbol_symbols _ _ _ _)).bind fun sp hsp => ?_
  refine (OnSuccess.lift (isSymbol_symbols _ _ _ _)).bind fun lambda hlambda => ?_
  refine .check_bind fun value hvalue => ?_
  have hvalue := make_ok (forall_mem_outputElements.mpr (List.forall_mem_singleton.mpr hrate))
    hvalue
  have hdm : ∀ (k : FunctionKind) (k' : Kind) (i : Nat),
      m.IsInputOf r.p sx sp lambda k .dm i → m.IsInputOf r.p sx sp lambda k k' i :=
    fun _ _ _ h => h
  have hover : ∀ k, m.rate.Keeps (m.IsInputOf r.p sx sp lambda k) := keeps_rate hvalue.accepted
  refine (stateSensitivity_keeps (hdm .forward) (hover .forward)
    (keeps_input hsx (by simp [FunctionKind.arguments]))).bind fun byState hbyState => ?_
  refine (controlSensitivity_keeps (hdm .forward) (hover .forward)
    (keeps_input hsp (by simp [FunctionKind.arguments]))).bind fun byControl hbyControl => ?_
  refine .check_bind fun forward hforward => ?_
  have hforward := make_ok_of_over (List.forall_mem_cons.mpr ⟨hover .forward,
    List.forall_mem_cons.mpr ⟨hbyState, List.forall_mem_singleton.mpr hbyControl⟩⟩) hforward
  refine .check_bind fun xu _ => ?_
  refine (reverseDerivative_keeps (hdm .adjoint) (hover .adjoint)
    (keeps_input hlambda (by simp [FunctionKind.arguments]))).bind fun gradient hgradient => ?_
  refine .check_bind fun adjoint hadjoint => ?_
  have hadjoint := make_ok_of_over (List.forall_mem_singleton.mpr hgradient) hadjoint
  -- the last function has the inputs of the third among its own
  have hgradient : gradient.Keeps (m.IsInputOf r.p sx sp lambda .hessian) :=
    hgradient.imp fun _ => mem_ids_of_subset (by simp [FunctionKind.arguments])
  refine (stackedDirections_keeps (hdm .hessian)
    (keeps_input hsx (by simp [FunctionKind.arguments]))
    (keeps_input hsp (by simp [FunctionKind.arguments]))).bind fun directions hdirections => ?_
  refine (projectedHessian_keeps (hdm .hessian) hdirections hgradient).bind
    fun projected hprojected => ?_
  refine (hessianColumn_keeps (hdm .hessian) hprojected).bind fun column hcolumn => ?_
  refine .check_bind fun hessian hhessian => .pure fun k => ?_
  have hhessian := make_ok_of_over (List.forall_mem_cons.mpr ⟨hgradient,
    List.forall_mem_singleton.mpr hcolumn⟩) hhessian
  have hmade : ∀ {f : SymbolicFunction α} {name : String} {inputs outputs : List (ExprMatrix α)},
      f.MadeOf name inputs outputs → f.name = name ∧ Accepted f.inputs f.outputs := fun h =>
    ⟨h.name_eq, h.inputs_eq ▸ h.outputs_eq ▸ h.accepted⟩
  cases k with
  | value => exact hmade hvalue
  | forward => exact hmade hforward
  | adjoint => exact hmade hadjoint
  | hessian => exact hmade hhessian

/-- **A model that has functions has a name, and its functions are accepted.** -/
theorem sensitivities_proper (hrate : ∀ e ∈ m.rate.elements, e ∈ pool) :
    OnSuccess m.sensitivities fun s => isIdentifier m.name = true ∧ m.Proper s := by
  intro n s h
  obtain ⟨r, next, hresolve, hfunctions⟩ := bind_run_iff.mp h
  refine ⟨?_, buildFunctions_proper hrate next s (adapt_run_ok hfunctions)⟩
  have hname := (refuse_run_iff.mp (congrArg Prod.fst hresolve)).1
  simpa using hname

end Model

end ExplicitOde
