import ExplicitOde.Derivative.Reverse
import ExplicitOde.Function.Basic
import ExplicitOde.Matrix.Arithmetic
import ExplicitOde.Matrix.Blocks
import ExplicitOde.Model.Basic

/-!
# Sensitivities

Four functions are derived from a model with the derivative `f` of its states:

* the value, `f` of `x u p`;
* the forward sensitivities, `f`, `J_x Sx` and `J_u + J_x Sp` of `x Sx Sp u p`;
* the adjoint sensitivities, the transposed `[J_x J_u]` times `lambdaX`, of `x lambdaX u p`;
* the second-order sensitivities of `x Sx Sp lambdaX u p`: the adjoint once more, and the lower
  triangle of `Sᵀ H S` where `H` is the second derivative of `lambdaXᵀ f` by `[x; u]` and `S` is
  `[[Sx, Sp], [0, I]]`.

The product `H S` is the forward derivative of the adjoint in the directions of `S`, so `H` itself
is never formed.
-/

namespace ExplicitOde

/-- The functions derived from a model. -/
inductive FunctionKind where
  | value | forward | adjoint | hessian
  deriving DecidableEq, Repr

namespace FunctionKind

/-- All functions, in the order in which they are generated. -/
def all : List FunctionKind := [value, forward, adjoint, hessian]

/-- What the name of a function ends in. -/
def ending : FunctionKind → String
  | value => "expl_ode_fun"
  | forward => "expl_vde_forw"
  | adjoint => "expl_vde_adj"
  | hessian => "expl_ode_hess"

/-- The name of a function of a model. -/
def functionName (kind : FunctionKind) (model : String) : String :=
  model ++ "_" ++ kind.ending

end FunctionKind

/-- One thing for every function of a model. -/
structure Sensitivities (β : Type) where
  value : β
  forward : β
  adjoint : β
  hessian : β

namespace Sensitivities

variable {β : Type}

/-- The thing for a function. -/
def get (s : Sensitivities β) : FunctionKind → β
  | .value => s.value
  | .forward => s.forward
  | .adjoint => s.adjoint
  | .hessian => s.hessian

/-- The things in the order of generation. -/
def toList (s : Sensitivities β) : List β :=
  FunctionKind.all.map s.get

end Sensitivities

variable {α : Type}

/-- The directions in which states and controls move together: the first columns move the states
by `Sx` and no control, the others move the states by `Sp` and one control each. -/
def stackedDirections [Scalar α] (kind : Kind) (nx nu : Nat) (sx sp : ExprMatrix α) :
    Attempt AlgebraError (ExprMatrix α) := do
  let states ← ExprMatrix.beside [sx, sp]
  let zero ← (ExprMatrix.zeros kind nu nx : Build (ExprMatrix α))
  let one ← (ExprMatrix.identity kind nu : Build (ExprMatrix α))
  let controls ← ExprMatrix.beside [zero, one]
  ExprMatrix.above [states, controls]

/-- The sensitivity of the states by their own initial values. -/
def stateSensitivity [Scalar α] (kind : Kind) (nx : Nat) (rate x sx : ExprMatrix α) :
    Attempt AlgebraError (ExprMatrix α) := do
  let zero ← (ExprMatrix.zeros kind nx nx : Build (ExprMatrix α))
  let moved ← rate.forwardDerivative x sx
  ExprMatrix.add zero moved

/-- The sensitivity of the states by the controls. -/
def controlSensitivity [Scalar α] (kind : Kind) (nx nu : Nat) (rate x u sp : ExprMatrix α) :
    Attempt AlgebraError (ExprMatrix α) := do
  let zero ← (ExprMatrix.zeros kind nx nu : Build (ExprMatrix α))
  let direct ← rate.jacobian u
  let sum ← ExprMatrix.add zero direct
  let moved ← rate.forwardDerivative x sp
  ExprMatrix.add sum moved

/-- The second derivative, projected on the directions from both sides. -/
def projectedHessian [Scalar α] (directions adjoint xu : ExprMatrix α) :
    Attempt AlgebraError (ExprMatrix α) := do
  let moved ← adjoint.forwardDerivative xu directions
  ExprMatrix.mul directions.transpose moved

/-- The lower triangle of the projected second derivative, as a column. -/
def hessianColumn [Scalar α] (kind : Kind) (n : Nat) (hessian : ExprMatrix α) :
    Attempt AlgebraError (ExprMatrix α) :=
  if n = 0 then (ExprMatrix.zeros kind 0 1 : Build (ExprMatrix α))
  else hessian.lowerTriangle

/-- The functions of a model that was resolved. -/
def buildFunctions [Scalar α] (m : Model α) (r : ResolvedModel α) :
    Attempt AlgebraError (Sensitivities (SymbolicFunction α)) := do
  let kind := Kind.ofRepresentation r.representation
  let new := fun name rows cols =>
    (ExprMatrix.symbols kind name rows cols : Attempt AlgebraError (ExprMatrix α))
  let name := fun (k : FunctionKind) => k.functionName m.name
  let sx ← new "Sx" r.nx r.nx
  let sp ← new "Sp" r.nx r.nu
  let lambda ← new "lambdaX" r.nx 1
  let value ← SymbolicFunction.make (name .value) [m.x, m.u, r.p] [m.rate]
  let byState ← stateSensitivity kind r.nx m.rate m.x sx
  let byControl ← controlSensitivity kind r.nx r.nu m.rate m.x m.u sp
  let forward ← SymbolicFunction.make (name .forward) [m.x, sx, sp, m.u, r.p]
    [m.rate, byState, byControl]
  let xu ← ExprMatrix.above [m.x, m.u]
  let gradient ← m.rate.reverseDerivative xu lambda
  let adjoint ← SymbolicFunction.make (name .adjoint) [m.x, lambda, m.u, r.p] [gradient]
  let directions ← stackedDirections kind r.nx r.nu sx sp
  let projected ← projectedHessian directions gradient xu
  let column ← hessianColumn kind (r.nx + r.nu) projected
  let hessian ← SymbolicFunction.make (name .hessian) [m.x, sx, sp, lambda, m.u, r.p]
    [gradient, column]
  return ⟨value, forward, adjoint, hessian⟩

/-- The functions of a model. -/
def Model.sensitivities [Scalar α] (m : Model α) :
    Attempt ModelError (Sensitivities (SymbolicFunction α)) := do
  let resolved ← m.resolve
  (buildFunctions m resolved).adapt .algebra

end ExplicitOde
