import ExplicitOde.Derivative.Reverse
import ExplicitOde.Function.Call
import ExplicitOde.Generation.Run
import ExplicitOde.Matrix.KindCodec
import ExplicitOde.Scalar.Double
import ExplicitOde.Proofs.Exact.Operation
import ExplicitOde.Proofs.Exact.Scalar
import ExplicitOde.Proofs.Exact.Value
import ExplicitOde.Proofs.Expr.Pool
import ExplicitOde.Proofs.Expr.Shortcut
import ExplicitOde.Proofs.Expr.Simplify
import ExplicitOde.Proofs.Expr.WrittenOut
import ExplicitOde.Proofs.Derivative.Partial
import ExplicitOde.Proofs.Expr.Order
import ExplicitOde.Proofs.Derivative.Directional
import ExplicitOde.Proofs.Derivative.Forward
import ExplicitOde.Proofs.Grid
import ExplicitOde.Proofs.Matrix.Kind
import ExplicitOde.Proofs.Matrix.Value
import ExplicitOde.Proofs.Derivative.Jacobian
import ExplicitOde.Proofs.Derivative.Reverse
import ExplicitOde.Proofs.Derivative.Transpose
import ExplicitOde.Proofs.Expr.Symbols
import ExplicitOde.Proofs.Expr.Leaves
import ExplicitOde.Proofs.Function.Call
import ExplicitOde.Proofs.Matrix.Arithmetic
import ExplicitOde.Proofs.Matrix.Blocks
import ExplicitOde.Proofs.Derivative.Second
import ExplicitOde.Proofs.Matrix.LowerTriangle
import ExplicitOde.Proofs.Model.Sensitivity
import ExplicitOde.Proofs.Model.Values
import ExplicitOde.Proofs.Function.Exact
import ExplicitOde.Proofs.Function.Values
import ExplicitOde.Proofs.Derivative.Closure
import ExplicitOde.Proofs.Matrix.Success
import ExplicitOde.Proofs.Derivative.Sparsity
import ExplicitOde.Proofs.Model.Success
import ExplicitOde.Proofs.Model.Assignment
import ExplicitOde.Proofs.Model.FirstOrder
import ExplicitOde.Proofs.Model.Hessian
import ExplicitOde.Proofs.Model.Symmetry
import ExplicitOde.Proofs.Declaration.Meaning
import ExplicitOde.Proofs.Model.Generation
import ExplicitOde.Proofs.C.Constant
import ExplicitOde.Proofs.C.Syntax
import ExplicitOde.Proofs.C.Machine
import ExplicitOde.Proofs.Code.Literal
import ExplicitOde.Proofs.Code.Text
import ExplicitOde.Proofs.Code.Kernel
import ExplicitOde.Proofs.Function.Verdict
import ExplicitOde.Proofs.Code.Refinement
import ExplicitOde.Proofs.Code.Isomorphism
import ExplicitOde.Proofs.Code.Renaming
import ExplicitOde.Proofs.Formula.RoundTrip
import ExplicitOde.Proofs.Formula.Position
import ExplicitOde.Proofs.Document.Writer
import ExplicitOde.Proofs.Declaration.RoundTrip
import ExplicitOde.Proofs.Declaration.Use
import ExplicitOde.Proofs.Document.Record
import ExplicitOde.Proofs.Declaration.Readers
import ExplicitOde.Proofs.Matrix.Closure
import ExplicitOde.Proofs.Session
import ExplicitOde.Proofs.Generation.Path
import ExplicitOde.Proofs.Generation.FileSystem
import ExplicitOde.Proofs.Model.Accepted
import ExplicitOde.Proofs.Generation.Emission
import ExplicitOde.Proofs.Generation.ModelPlan
import ExplicitOde.Proofs.Generation.Run
import ExplicitOde.Proofs.Generation.Independence
import ExplicitOde.Proofs.Formula.Blank
import ExplicitOde.Proofs.Formula.Munch
import ExplicitOde.Proofs.Formula.Name
import ExplicitOde.Proofs.Declaration.Verdict
import ExplicitOde.Proofs.Function.Arguments
import ExplicitOde.Proofs.Matrix.Assembly
import ExplicitOde.Proofs.Matrix.Storage
import ExplicitOde.Proofs.Matrix.Construction
import ExplicitOde.Proofs.Generation.Configuration
import ExplicitOde.Proofs.Code.Sparsity
