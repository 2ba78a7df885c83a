import ExplicitOde.Code.Names
import ExplicitOde.Function.Basic

/-!
# The MEX gateway

The text of a `mexFunction` that checks the arguments it is called with, hands their values and new
matrices for the results to the generated function, and reports failure.
-/

namespace ExplicitOde

namespace Code

variable {α : Type}

/-- The start of a call that reports an error. -/
def mexError : String := s!"mexErrMsgIdAndTxt(\"{privateWord}:mex\", "

/-- The statement that refuses more arguments or results than there are. -/
def mexCountLine (function number what : String) (count : Nat) : String :=
  s!"  if ({number}>{count}) {mexError}\"Evaluation of \\\"{function}\\\" failed. " ++
    s!"Too many {what} arguments (%d, max {count})\", {number});"

/-- The statements that take an argument. -/
def mexInputLines (function : String) (index : Nat) (input : ExprMatrix α) : List String :=
  [s!"  if (argc>{index} && !mxIsEmpty(argv[{index}])) \x7b",
    s!"    if (mxGetM(argv[{index}])*mxGetN(argv[{index}])!={input.numel}) {mexError}" ++
      s!"\"Input {index} of \\\"{function}\\\" must have {input.rows}x{input.cols} elements\");",
    s!"    arg[{index}] = mxGetPr(argv[{index}]);",
    "  \x7d else \x7b",
    s!"    arg[{index}] = 0;",
    "  \x7d"]

/-- The statements that prepare a result; the first is always computed. -/
def mexOutputLines (index : Nat) (output : ExprMatrix α) : List String :=
  [s!"  if (resc>{index} || {index}==0) \x7b",
    s!"    resv[{index}] = mxCreateDoubleMatrix({output.rows}, {output.cols}, mxREAL);",
    s!"    res[{index}] = mxGetPr(resv[{index}]);",
    "  \x7d else \x7b",
    s!"    res[{index}] = 0;",
    "  \x7d"]

/-- The gateway to a function. -/
def mexLines (f : SymbolicFunction α) : List String :=
  let inputs := f.inputs.length
  let outputs := f.outputs.length
  ["", "#ifdef MATLAB_MEX_FILE", "#include <mex.h>", "",
    "void mexFunction(int resc, mxArray *resv[], int argc, const mxArray *argv[]) \x7b",
    s!"  const {realType}* arg[{max inputs 1}];",
    s!"  {realType}* res[{max outputs 1}];",
    mexCountLine f.name "argc" "input" inputs,
    mexCountLine f.name "resc" "output" outputs] ++
  (f.inputs.zipIdx.flatMap fun (m, i) => mexInputLines f.name i m) ++
  (f.outputs.zipIdx.flatMap fun (m, i) => mexOutputLines i m) ++
  [s!"  if ({f.name}(arg, res, 0, 0, 0)) {mexError}" ++
      s!"\"Evaluation of \\\"{f.name}\\\" failed.\");",
    "\x7d", "#endif"]

end Code

end ExplicitOde
