import ExplicitOde.Model.Sensitivity
import ExplicitOde.Proofs.Matrix.Lockstep

/-!
# Models in step

Models are alike if they have one name, parameters given in one way, and parts that are alike. The
checks on the way to their functions look at kinds, shapes and identities only, so **the functions
of models that are alike are alike**, or there are none of either.
-/

namespace ExplicitOde

open Relator (BiUnique)
open ExplicitOde.Expr

variable {α : Type} {ρ : Nat → Nat → Prop}

/-! ## Functions -/

/-- Functions of one name and kind with inputs and outputs that are alike. -/
structure SymbolicFunction.Alike (ρ : Nat → Nat → Prop) (f f' : SymbolicFunction α) : Prop where
  name : f.name = f'.name
  kind : f.kind = f'.kind
  inputs : List.Forall₂ (ExprMatrix.Alike ρ) f.inputs f'.inputs
  outputs : List.Forall₂ (ExprMatrix.Alike ρ) f.outputs f'.outputs

/-- Sets that have the same of two related identities. -/
def SeenAlike (ρ : Nat → Nat → Prop) (known known' : Std.HashSet Nat) : Prop :=
  ∀ i j, ρ i j → known.contains i = known'.contains j

section Checks

variable {known known' : Std.HashSet Nat} {es es' : List (Expr α)}

theorem seenAlike_empty : SeenAlike ρ ∅ ∅ := by
  intro i j _
  rw [Std.HashSet.contains_empty, Std.HashSet.contains_empty]

theorem SeenAlike.insert (hρ : BiUnique ρ) (h : SeenAlike ρ known known') {i j : Nat}
    (hij : ρ i j) : SeenAlike ρ (known.insert i) (known'.insert j) := by
  intro k l hkl
  rw [Std.HashSet.contains_insert, Std.HashSet.contains_insert,
    beq_eq_of_biUnique hρ hij hkl, h k l hkl]

theorem distinctById_alike (hρ : BiUnique ρ) (hes : List.Forall₂ (Expr.Alike ρ) es es')
    (h : SeenAlike ρ known known') :
    List.Forall₂ (Expr.Alike ρ) (distinctById known es) (distinctById known' es') := by
  induction hes generalizing known known' with
  | nil => exact .nil
  | cons he _ ih =>
      rw [distinctById, distinctById]
      refine rel_ite (by rw [h _ _ he.id]) (ih h) ?_
      exact .cons he (ih (h.insert hρ he.id))

theorem freeSymbols_alike (hρ : BiUnique ρ) (hes : List.Forall₂ (Expr.Alike ρ) es es') :
    List.Forall₂ (Expr.Alike ρ) (freeSymbols es) (freeSymbols es') := by
  have horder := evaluationOrder_alike hρ hes
  refine distinctById_alike hρ (List.rel_filter (fun e e' he => ?_) horder) seenAlike_empty
  simp only [he.isSymbol_eq]

theorem addSymbols_alike (hρ : BiUnique ρ) (name : String)
    (hes : List.Forall₂ (Expr.Alike ρ) es es') (h : SeenAlike ρ known known') :
    Outcome (SeenAlike ρ) (SymbolicFunction.addSymbols name known es)
      (SymbolicFunction.addSymbols name known' es') := by
  induction hes generalizing known known' with
  | nil => exact .ok h
  | cons he _ ih =>
      rw [SymbolicFunction.addSymbols, SymbolicFunction.addSymbols]
      exact rel_ite (by rw [h _ _ he.id]) .error (ih (h.insert hρ he.id))

theorem inputSymbols_alike (hρ : BiUnique ρ) (name : String) (index : Nat)
    {inputs inputs' : List (ExprMatrix α)}
    (hinputs : List.Forall₂ (ExprMatrix.Alike ρ) inputs inputs') (h : SeenAlike ρ known known') :
    Outcome (SeenAlike ρ) (SymbolicFunction.inputSymbols name known index inputs)
      (SymbolicFunction.inputSymbols name known' index inputs') := by
  induction hinputs generalizing known known' index with
  | nil => exact .ok h
  | @cons m m' _ _ hm _ ih =>
      have hadded := addSymbols_alike hρ name hm.elements h
      rw [SymbolicFunction.inputSymbols, SymbolicFunction.inputSymbols]
      refine rel_ite (by rw [hm.isSymbolic_eq]) ?_ .error
      generalize SymbolicFunction.addSymbols name known m.elements = c at hadded
      generalize SymbolicFunction.addSymbols name known' m'.elements = c' at hadded
      cases hadded with
      | ok h => exact ih (index + 1) h
      | error => exact .error

/-- Functions are accepted for what their inputs and outputs are like. -/
theorem make_alike (hρ : BiUnique ρ) (name : String)
    {inputs inputs' outputs outputs' : List (ExprMatrix α)}
    (hinputs : List.Forall₂ (ExprMatrix.Alike ρ) inputs inputs')
    (houtputs : List.Forall₂ (ExprMatrix.Alike ρ) outputs outputs') :
    Outcome (SymbolicFunction.Alike ρ) (SymbolicFunction.make name inputs outputs)
      (SymbolicFunction.make name inputs' outputs') := by
  have hroots : List.Forall₂ (Expr.Alike ρ) (SymbolicFunction.outputElements outputs)
      (SymbolicFunction.outputElements outputs') :=
    List.rel_flatMap houtputs fun _ _ hm => hm.elements
  rw [SymbolicFunction.make, SymbolicFunction.make,
    ExprMatrix.kinds_eq (List.rel_append hinputs houtputs)]
  refine .bind_self fun kind => ?_
  refine (inputSymbols_alike hρ name 0 hinputs seenAlike_empty).bind fun known known' hknown => ?_
  have hfree : List.Forall₂ (Expr.Alike ρ)
      ((freeSymbols (SymbolicFunction.outputElements outputs)).filter
        fun e => !known.contains e.id)
      ((freeSymbols (SymbolicFunction.outputElements outputs')).filter
        fun e => !known'.contains e.id) := by
    refine List.rel_filter (fun e e' he => ?_) (freeSymbols_alike hρ hroots)
    simp only [hknown e.id e'.id he.id]
  refine rel_ite ?_ (.ok ⟨rfl, rfl, hinputs, houtputs⟩) .error
  rw [List.isEmpty_iff_length_eq_zero, List.isEmpty_iff_length_eq_zero, hfree.length_eq]

end Checks

/-! ## Models -/

/-- Parameters that are given in one way. -/
inductive ParametersAlike (ρ : Nat → Nat → Prop) : Parameters α → Parameters α → Prop where
  | symbolic {p p' : ExprMatrix α} (h : p.Alike ρ p') :
      ParametersAlike ρ (.symbolic p) (.symbolic p')
  | separate {parts parts' : List (ExprMatrix α)}
      (h : List.Forall₂ (ExprMatrix.Alike ρ) parts parts') :
      ParametersAlike ρ (.separate parts) (.separate parts')

/-- Models of one name with parts that are alike. -/
structure Model.Alike (ρ : Nat → Nat → Prop) (m m' : Model α) : Prop where
  name : m.name = m'.name
  x : m.x.Alike ρ m'.x
  u : m.u.Alike ρ m'.u
  p : ParametersAlike ρ m.p m'.p
  rate : m.rate.Alike ρ m'.rate

/-- Models that amount to the same, with parameters that are alike. -/
structure ResolvedModel.Alike (ρ : Nat → Nat → Prop) (r r' : ResolvedModel α) : Prop where
  nx : r.nx = r'.nx
  nu : r.nu = r'.nu
  np : r.np = r'.np
  representation : r.representation = r'.representation
  p : r.p.Alike ρ r'.p

variable {m m' : Model α} {r r' : ResolvedModel α}

theorem together_resolve (h : m.Alike ρ m') :
    Together ρ m.resolve m'.resolve (ResolvedModel.Alike ρ) := by
  rw [Model.resolve, Model.resolve, h.name, h.rate.kind]
  refine .ite Iff.rfl (.throw_bind _ _) ?_
  cases m'.rate.kind.representation? with
  | none => exact .throw _ _
  | some representation =>
      have hp := h.p
      dsimp only
      generalize m.p = p at hp
      generalize m'.p = p' at hp
      cases hp with
      | symbolic hp => exact .pure ⟨h.x.rows_eq, h.u.rows_eq, hp.rows_eq, rfl, hp⟩
      | separate hparts =>
          cases hparts with
          | nil =>
              exact (Together.lift (ExprMatrix.inStep_symbols _ "p" "p" 0 0)).bind
                fun p p' hp => .pure ⟨h.x.rows_eq, h.u.rows_eq, rfl, rfl, hp⟩
          | cons => exact .throw _ _

/-! ## The steps to the functions -/

section Steps

open ExprMatrix

variable [Scalar α] {kind : Kind} {nx nu : Nat}
  {rate rate' x x' u u' sx sx' sp sp' directions directions' gradient gradient' xu xu' hessian
    hessian' : ExprMatrix α}

theorem together_stateSensitivity (hρ : BiUnique ρ) (hrate : rate.Alike ρ rate')
    (hx : x.Alike ρ x') (hsx : sx.Alike ρ sx') :
    Together ρ (stateSensitivity kind nx rate x sx) (stateSensitivity kind nx rate' x' sx')
      (ExprMatrix.Alike ρ) := by
  refine (Together.lift (inStep_zeros kind nx nx)).bind fun zero zero' hzero => ?_
  exact (together_forwardDerivative hρ hrate hx hsx).bind fun moved moved' hmoved =>
    together_add hρ hzero hmoved

theorem together_controlSensitivity (hρ : BiUnique ρ) (hrate : rate.Alike ρ rate')
    (hx : x.Alike ρ x') (hu : u.Alike ρ u') (hsp : sp.Alike ρ sp') :
    Together ρ (controlSensitivity kind nx nu rate x u sp)
      (controlSensitivity kind nx nu rate' x' u' sp') (ExprMatrix.Alike ρ) := by
  refine (Together.lift (inStep_zeros kind nx nu)).bind fun zero zero' hzero => ?_
  refine (together_jacobian hρ hrate hu).bind fun direct direct' hdirect => ?_
  refine (together_add hρ hzero hdirect).bind fun sum sum' hsum => ?_
  exact (together_forwardDerivative hρ hrate hx hsp).bind fun moved moved' hmoved =>
    together_add hρ hsum hmoved

theorem together_stackedDirections (hsx : sx.Alike ρ sx')
    (hsp : sp.Alike ρ sp') :
    Together ρ (stackedDirections kind nx nu sx sp) (stackedDirections kind nx nu sx' sp')
      (ExprMatrix.Alike ρ) := by
  refine (Together.check (beside_alike (.cons hsx (.cons hsp .nil)))).bind
    fun states states' hstates => ?_
  refine (Together.lift (inStep_zeros kind nu nx)).bind fun zero zero' hzero => ?_
  refine (Together.lift (inStep_identity kind nu)).bind fun one one' hone => ?_
  exact (Together.check (beside_alike (.cons hzero (.cons hone .nil)))).bind
    fun controls controls' hcontrols =>
      .check (above_alike (.cons hstates (.cons hcontrols .nil)))

theorem together_projectedHessian (hρ : BiUnique ρ) (hdirections : directions.Alike ρ directions')
    (hgradient : gradient.Alike ρ gradient') (hxu : xu.Alike ρ xu') :
    Together ρ (projectedHessian directions gradient xu)
      (projectedHessian directions' gradient' xu') (ExprMatrix.Alike ρ) :=
  (together_forwardDerivative hρ hgradient hxu hdirections).bind fun _ _ hmoved =>
    together_mul hρ hdirections.transpose hmoved

theorem together_hessianColumn (n : Nat) (h : hessian.Alike ρ hessian') :
    Together ρ (hessianColumn kind n hessian) (hessianColumn kind n hessian')
      (ExprMatrix.Alike ρ) :=
  .ite Iff.rfl (.lift (inStep_zeros kind 0 1)) (.check (lowerTriangle_alike h))

end Steps

/-! ## The functions of a model -/

/-- Functions that are alike, kind by kind. -/
def SensitivitiesAlike (ρ : Nat → Nat → Prop)
    (s s' : Sensitivities (SymbolicFunction α)) : Prop :=
  ∀ k, (s.get k).Alike ρ (s'.get k)

variable [Scalar α]

theorem together_buildFunctions (hρ : BiUnique ρ) (h : m.Alike ρ m') (hr : r.Alike ρ r') :
    Together ρ (buildFunctions m r) (buildFunctions m' r') (SensitivitiesAlike ρ) := by
  rw [buildFunctions, buildFunctions, h.name, hr.nx, hr.nu, hr.representation]
  refine (Together.lift (ExprMatrix.inStep_symbols _ _ _ _ _)).bind fun sx sx' hsx => ?_
  refine (Together.lift (ExprMatrix.inStep_symbols _ _ _ _ _)).bind fun sp sp' hsp => ?_
  refine (Together.lift (ExprMatrix.inStep_symbols _ _ _ _ _)).bind fun l l' hl => ?_
  refine (Together.check (make_alike hρ _ (.cons h.x (.cons h.u (.cons hr.p .nil)))
    (.cons h.rate .nil))).bind fun value value' hvalue => ?_
  refine (together_stateSensitivity hρ h.rate h.x hsx).bind fun byState byState' hbyState => ?_
  refine (together_controlSensitivity hρ h.rate h.x h.u hsp).bind fun byControl byControl'
    hbyControl => ?_
  refine (Together.check (make_alike hρ _
    (.cons h.x (.cons hsx (.cons hsp (.cons h.u (.cons hr.p .nil)))))
    (.cons h.rate (.cons hbyState (.cons hbyControl .nil))))).bind fun forward forward'
      hforward => ?_
  refine (Together.check (ExprMatrix.above_alike (.cons h.x (.cons h.u .nil)))).bind
    fun xu xu' hxu => ?_
  refine (ExprMatrix.together_reverseDerivative hρ h.rate hxu hl).bind fun gradient gradient'
    hgradient => ?_
  refine (Together.check (make_alike hρ _
    (.cons h.x (.cons hl (.cons h.u (.cons hr.p .nil))))
    (.cons hgradient .nil))).bind fun adjoint adjoint' hadjoint => ?_
  refine (together_stackedDirections hsx hsp).bind fun directions directions'
    hdirections => ?_
  refine (together_projectedHessian hρ hdirections hgradient hxu).bind fun projected projected'
    hprojected => ?_
  refine (together_hessianColumn _ hprojected).bind fun column column' hcolumn => ?_
  refine (Together.check (make_alike hρ _
    (.cons h.x (.cons hsx (.cons hsp (.cons hl (.cons h.u (.cons hr.p .nil))))))
    (.cons hgradient (.cons hcolumn .nil)))).bind fun hessian hessian' hhessian => ?_
  refine .pure fun k => ?_
  cases k with
  | value => exact hvalue
  | forward => exact hforward
  | adjoint => exact hadjoint
  | hessian => exact hhessian

/-- **Models that are alike have functions that are alike.** -/
theorem together_sensitivities (hρ : BiUnique ρ) (h : m.Alike ρ m') :
    Together ρ m.sensitivities m'.sensitivities (SensitivitiesAlike ρ) :=
  (together_resolve h).bind fun _ _ hr => (together_buildFunctions hρ h hr).adapt _ _

end ExplicitOde
