import ExplicitOde.Generation.Path

/-!
# Places of generated files

The generated files of a model are in a directory of the model's name, below one directory for all
generated code, below a base.
-/

namespace ExplicitOde

/-- The directory of all generated code. -/
def generatedDirectory (base : String) : String :=
  joinPath base "c_generated_code"

/-- The name of the directory of a model. -/
def modelDirectoryName (model : String) : String := model ++ "_model"

/-- The directory of a model. -/
def modelDirectory (base model : String) : String :=
  joinPath (generatedDirectory base) (modelDirectoryName model)

end ExplicitOde
