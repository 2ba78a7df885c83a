import ExplicitOde.Code.Mex
import ExplicitOde.Code.Sparsity
import ExplicitOde.Code.Statement

/-!
# Generated code

The C source of a function and the header that declares it. Both depend on the function and the
options only, and on symbols only through their places among the inputs, so that the same function
always has the same code.
-/

namespace ExplicitOde

namespace Code

variable {α : Type}

/-- The first line of every generated file. -/
def banner : String :=
  s!"/* This file was automatically generated by {privateWord} 0.1.0. Do not edit. */"

/-- The definition of a type, unless there is one already. -/
def typeLines (name cType : String) : List String :=
  [s!"#ifndef {name}", s!"#define {name} {cType}", "#endif"]

/-- The definitions of both types of numbers. -/
def numberTypeLines (options : CodeOptions) : List String :=
  typeLines realType options.floats.cType ++ [""] ++ typeLines intType options.integers.cType

/-- The start of what a C++ compiler shall take as C. -/
def linkageStart : List String := ["#ifdef __cplusplus", "extern \"C\" \x7b", "#endif"]

/-- The end of what a C++ compiler shall take as C. -/
def linkageEnd : List String := ["#ifdef __cplusplus", "\x7d /* extern \"C\" */", "#endif"]

/-- The array of the pattern of a shape. -/
def patternLine (index : Nat) (shape : Shape) : String :=
  let entries := densePattern shape
  s!"static const {intType} {patternName index}[{entries.length}] = \x7b" ++
    String.intercalate ", " (entries.map toString) ++ "\x7d;"

/-- A shape in the description of a function. -/
def describeShape : Shape → String
  | (1, 1) => ""
  | (rows, 1) => s!"[{rows}]"
  | (0, 0) => "[]"
  | (rows, cols) => s!"[{rows}x{cols}]"

/-- Matrices in the description of a function. -/
def describeAll (name : Nat → String) (ms : List (ExprMatrix α)) : String :=
  String.intercalate "," (ms.zipIdx.map fun (m, i) => name i ++ describeShape m.shape)

/-- The name of a function with its inputs and outputs. -/
def description (f : SymbolicFunction α) : String :=
  f.name ++ ":(" ++ describeAll SymbolicFunction.inputName f.inputs ++ ")->(" ++
    describeAll SymbolicFunction.outputName f.outputs ++ ")"

/-- A choice by number. -/
def switchLines (items : List String) : List String :=
  ["  switch (i) \x7b"] ++
    (items.zipIdx.map fun (item, i) => s!"    case {i}: return {item};") ++
    ["    default: return 0;", "  \x7d"]

/-- A function of several lines. -/
def functionLines (head : String) (body : List String) : List String :=
  [head ++ " \x7b"] ++ body ++ ["\x7d"]

/-- A name as a C string. -/
def nameLiteral (name : String) : String := "\"" ++ name ++ "\""

/-- The definition of a query about a function. -/
def queryLines (f : SymbolicFunction α) (query : Query) : List String :=
  let head := query.head f.name
  let patterns := fun (ms : List (ExprMatrix α)) =>
    ms.map fun m => patternName (f.patternIndex m.shape)
  match query with
  | .inputCount => [s!"{head} \x7b return {f.inputs.length}; \x7d"]
  | .outputCount => [s!"{head} \x7b return {f.outputs.length}; \x7d"]
  | .inputName =>
    functionLines head <| switchLines <|
      (List.range f.inputs.length).map fun i => nameLiteral (SymbolicFunction.inputName i)
  | .outputName =>
    functionLines head <| switchLines <|
      (List.range f.outputs.length).map fun i => nameLiteral (SymbolicFunction.outputName i)
  | .inputPattern => functionLines head (switchLines (patterns f.inputs))
  | .outputPattern => functionLines head (switchLines (patterns f.outputs))
  | .workspace =>
    functionLines head
      [s!"  if (sz_arg) *sz_arg = {f.inputs.length};",
        s!"  if (sz_res) *sz_res = {f.outputs.length};",
        "  if (sz_iw) *sz_iw = 0;",
        "  if (sz_w) *sz_w = 0;",
        "  return 0;"]

/-- The lines of the source of a function with a given kernel. -/
def sourceLines [Written α] (options : CodeOptions) (f : SymbolicFunction α) (kernel : Kernel α) :
    List String :=
  [banner] ++ linkageStart ++ ["", "#include <math.h>", ""] ++
    numberTypeLines options ++ [""] ++
    (f.shapes.zipIdx.map fun (shape, k) => patternLine k shape) ++ [""] ++
    ["/* " ++ description f ++ " */"] ++
    functionLines ("static " ++ evaluationHead kernelName)
      (kernelLines options.floats kernel ++ ["  return 0;"]) ++ [""] ++
    functionLines (evaluationHead f.name) [s!"  return {kernelName}(arg, res, iw, w, mem);"] ++
    (Query.all.flatMap fun query => "" :: queryLines f query) ++
    (if options.gateway = .mex then mexLines f else []) ++
    [""] ++ linkageEnd

/-- The lines of the header of a function. -/
def headerLines (options : CodeOptions) (function : String) : List String :=
  [banner] ++ numberTypeLines options ++ [""] ++ linkageStart ++ [""] ++
    [evaluationHead function ++ ";"] ++ (Query.all.map fun query => query.head function ++ ";") ++
    [""] ++ linkageEnd

/-- A text of lines. -/
def textOfLines (lines : List String) : String :=
  String.join (lines.map (· ++ "\n"))

end Code

/-- The generated code of a function. -/
structure GeneratedCode where
  name : String
  source : String
  /-- The header, if one was asked for. -/
  header : Option String
  deriving DecidableEq, Repr

namespace GeneratedCode

/-- The name of the file of the source. -/
def sourceFile (code : GeneratedCode) : String := code.name ++ ".c"

/-- The name of the file of the header. -/
def headerFile (code : GeneratedCode) : String := code.name ++ ".h"

/-- The generated files, by name. -/
def files (code : GeneratedCode) : List (String × String) :=
  (code.sourceFile, code.source) ::
    match code.header with
    | some text => [(code.headerFile, text)]
    | none => []

end GeneratedCode

/-- Generates the code of a function. -/
def generateCode {α : Type} [Written α] (options : CodeOptions) (f : SymbolicFunction α) :
    Except AlgebraError GeneratedCode := do
  options.check
  let kernel ← Kernel.ofFunction f
  return {
    name := f.name
    source := Code.textOfLines (Code.sourceLines options f kernel)
    header :=
      if options.header then some (Code.textOfLines (Code.headerLines options f.name)) else none
  }

end ExplicitOde
