import ExplicitOde.Error

/-!
# Options of generated code

The types of numbers in generated code, and what is generated beside the function itself.
-/

namespace ExplicitOde

/-- A layer through which other systems call the generated code. -/
inductive Gateway where
  | absent
  /-- A MATLAB MEX function, compiled where `MATLAB_MEX_FILE` is defined. -/
  | mex
  deriving DecidableEq, Repr

/-- The type of dimensions and sparsity patterns. -/
inductive IntegerWidth where
  | int32 | int64
  deriving DecidableEq, Repr

/-- The C type of a width. -/
def IntegerWidth.cType : IntegerWidth → String
  | int32 => "int"
  | int64 => "long long int"

/-- The type of all other numbers. -/
inductive FloatWidth where
  | single | double
  deriving DecidableEq, Repr

namespace FloatWidth

/-- The C type of a width. -/
def cType : FloatWidth → String
  | single => "float"
  | double => "double"

/-- What literals and names of elementary functions of a width end in. -/
def ending : FloatWidth → String
  | single => "f"
  | double => ""

end FloatWidth

/-- The decisions about generated code. -/
structure CodeOptions where
  gateway : Gateway := .absent
  integers : IntegerWidth := .int32
  floats : FloatWidth := .double
  /-- A header that declares the entry points is generated too. -/
  header : Bool := false
  deriving DecidableEq, Repr

/-- The gateway hands over arrays of doubles as they are, so it needs double precision. -/
def CodeOptions.check (options : CodeOptions) : Except AlgebraError Unit :=
  if options.gateway = .mex ∧ options.floats ≠ .double then .error .gatewayPrecision else .ok ()

end ExplicitOde
