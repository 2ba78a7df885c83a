import ExplicitOde.Code.Source
import ExplicitOde.Declaration.Model
import ExplicitOde.Generation.Config
import ExplicitOde.Generation.FileSystem
import ExplicitOde.Generation.Layout
import ExplicitOde.Model.Sensitivity

/-!
# Generation

A run checks the version of the engine, builds the functions of a model and writes their code. What
was written before a failure stays, and a file that cannot be written is left as it was. A write
fails for what is in the file system and for the path only; it does not break off halfway.
-/

namespace ExplicitOde

/-- Causes of failure of a run. -/
inductive GenerationError where
  | version (detected : String) (allowed : List String)
  | model (cause : ModelError)
  | code (cause : AlgebraError)
  /-- A directory or file cannot be made. -/
  | files (path : String)
  | declaration (cause : DeclarationError)

namespace GenerationError

/-- The wording of a cause. -/
def message : GenerationError → String
  | version detected allowed =>
    "Please install symbolic engine version " ++ String.intercalate " or " allowed ++
      s!" to ensure compatibility. Version {detected} currently in use."
  | model cause => cause.message
  | code cause => "Code generation failed: " ++ cause.message
  | files path => "Failed to write generated code to " ++ path
  | declaration cause => "Error in the JSON model: " ++ cause.message

/-- A description that yields no model. -/
def ofDescription : DescriptionError → GenerationError
  | .declaration cause => declaration cause
  | .model cause => model cause

end GenerationError

/-- The engine has one of the accepted versions. -/
def checkVersion (versions : List String) : Except GenerationError Unit :=
  if versions.contains engineVersion then .ok () else .error (.version engineVersion versions)

/-- What a run has written. -/
structure Emitted where
  directory : String
  /-- The paths of the files, in the order of writing. -/
  paths : List String
  deriving DecidableEq, Repr

/-- Changes to a file system that may break off. -/
abbrev Writing := ExceptT GenerationError (StateM FileSystem)

namespace Writing

/-- Makes sure that a path leads to a directory. -/
def ensure (path : String) : Writing Unit := do
  let (files, done) := (← get).ensurePath path
  set files
  if !done then throw (.files path)

/-- Writes a file into a directory; the result is its path. -/
def write (directory : String) (file : String × String) : Writing String := do
  let path := joinPath directory file.1
  match (← get).store? path file.2 with
  | some files =>
    set files
    return path
  | none => throw (.files path)

end Writing

variable {α : Type}

/-- The functions of a model, for a run. -/
def prepare [Scalar α] (config : Configuration) (m : Model α) :
    Attempt GenerationError (Sensitivities (SymbolicFunction α)) := do
  checkVersion config.versions
  m.sensitivities.adapt .model

/-- The model of a declaration, for a run. -/
def prepareText [Scalar α] (config : Configuration) (text : String) :
    Attempt GenerationError (Model α) := do
  checkVersion config.versions
  (Declaration.modelOfText text).adapt .ofDescription

/-- Generates the code of a function and writes its files into a directory. -/
def emitFunction [Written α] (options : CodeOptions) (directory : String)
    (f : SymbolicFunction α) : Writing (List String) := do
  match generateCode options f with
  | .error cause => throw (.code cause)
  | .ok code => code.files.mapM (Writing.write directory)

/-- Generates the code of the functions of a model and writes all files. -/
def emit [Written α] (config : Configuration) (model : String)
    (functions : List (SymbolicFunction α)) : Writing Emitted := do
  Writing.ensure (generatedDirectory config.base)
  let directory := modelDirectory config.base model
  Writing.ensure directory
  let paths ← functions.mapM (emitFunction config.code directory)
  return ⟨directory, paths.flatten⟩

/-- Generates the code of a model. The result is the file system afterwards, and what was written
or why it was not. -/
def generateModel [Scalar α] [Written α] (config : Configuration) (m : Model α)
    (files : FileSystem) : Build (Except GenerationError Emitted × FileSystem) := do
  match ← (prepare config m).run with
  | .error cause => return (.error cause, files)
  | .ok functions => return (emit config m.name functions.toList).run files

variable (α) in
/-- Generates the code of a declared model over numbers `α`. -/
def generateText [Scalar α] [Written α] (config : Configuration) (text : String)
    (files : FileSystem) : Build (Except GenerationError Emitted × FileSystem) := do
  match ← (prepareText config text : Attempt GenerationError (Model α)).run with
  | .error cause => return (.error cause, files)
  | .ok m => generateModel config m files

end ExplicitOde
