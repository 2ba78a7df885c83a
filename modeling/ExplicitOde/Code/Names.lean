import ExplicitOde.Code.Options

/-!
# Names in generated code

The function of the evaluation has the name it was given. Beside it stand seven queries, each named
by the function with an ending. What is private to a unit has names that start with a word of
their own.
-/

namespace ExplicitOde

namespace Code

/-- The word with which private names start. -/
def privateWord : String := "odesens"

/-- The name of the type of values. -/
def realType : String := privateWord ++ "_real"

/-- The name of the type of dimensions and patterns. -/
def intType : String := privateWord ++ "_int"

/-- The name of the function that has the kernel in it. -/
def kernelName : String := privateWord ++ "_f0"

/-- The name of the array of a sparsity pattern. -/
def patternName (index : Nat) : String := s!"{privateWord}_s{index}"

/-- The head of a function that evaluates. -/
def evaluationHead (name : String) : String :=
  s!"int {name}(const {realType}** arg, {realType}** res, {intType}* iw, {realType}* w, void* mem)"

/-- What can be asked about a generated function. -/
inductive Query where
  | inputCount | outputCount | inputName | outputName | inputPattern | outputPattern | workspace
  deriving DecidableEq, Repr

namespace Query

/-- All queries, in the order in which they are generated. -/
def all : List Query :=
  [inputCount, outputCount, inputName, outputName, inputPattern, outputPattern, workspace]

/-- What the name of a query ends in. -/
def ending : Query → String
  | inputCount => "_n_in"
  | outputCount => "_n_out"
  | inputName => "_name_in"
  | outputName => "_name_out"
  | inputPattern => "_sparsity_in"
  | outputPattern => "_sparsity_out"
  | workspace => "_work"

/-- The type of the answer to a query. -/
def resultType : Query → String
  | inputCount => intType
  | outputCount => intType
  | inputName => "const char*"
  | outputName => "const char*"
  | inputPattern => "const " ++ intType ++ "*"
  | outputPattern => "const " ++ intType ++ "*"
  | workspace => "int"

/-- The parameters of a query. -/
def parameters : Query → String
  | inputCount => "void"
  | outputCount => "void"
  | inputName => intType ++ " i"
  | outputName => intType ++ " i"
  | inputPattern => intType ++ " i"
  | outputPattern => intType ++ " i"
  | workspace => s!"{intType} *sz_arg, {intType}* sz_res, {intType} *sz_iw, {intType} *sz_w"

/-- The name of a query about a function. -/
def name (query : Query) (function : String) : String := function ++ query.ending

/-- The head of a query about a function. -/
def head (query : Query) (function : String) : String :=
  s!"{query.resultType} {query.name function}({query.parameters})"

end Query

/-- The names that the generated unit of a function defines for others to use. -/
def externalNames (function : String) : List String :=
  function :: Query.all.map fun query => query.name function

end Code

end ExplicitOde
