import ExplicitOde.Code.OptionsCodec
import ExplicitOde.Generation.Path

/-!
# Configuration of a generation

Where files go, the options of generated code, and the versions of the symbolic engine that are
accepted. As a document, a configuration is an object of three fields, or a list of them. Absent
fields have their default, and other fields are passed over.
-/

namespace ExplicitOde

/-- The version of the symbolic engine, the part that differentiates and emits expressions. -/
def engineVersion : String := "1.0.0"

/-- The decisions about a generation. -/
structure Configuration where
  /-- The directory below which files go. -/
  base : String := "."
  code : CodeOptions := {}
  /-- The accepted versions of the engine. -/
  versions : List String := ["1.0.0"]
  deriving DecidableEq, Repr

namespace Configuration

/-- The configurations say the same; their bases may be spelt differently. -/
def same (a b : Configuration) : Bool :=
  samePath a.base b.base && a.code == b.code && a.versions == b.versions

/-- Reads a field. -/
def readField (field : String) (value : Document) (c : Configuration) :
    Document.Decoded Configuration :=
  match field with
  | "output_base" => do return { c with base := ← value.decodeString .path }
  | "codegen" => do return { c with code := ← CodeOptions.ofDocument value }
  | "allowed_engine_versions" => do return { c with versions := ← value.decodeStrings }
  | _ => .ok c

/-- The form of configurations. -/
def form : Document.RecordForm Configuration where
  name := "GeneratorConfig"
  fields := ["output_base", "codegen", "allowed_engine_versions"]
  required := []
  requiredInList := []
  skipsUnknown := true
  field := readField

/-- The configuration that a text spells. -/
def ofText (text : String) : Document.Decoded Configuration :=
  Document.decodeText (Document.decodeRecord .text form {}) text

/-- A configuration as a document. -/
def toDocument (c : Configuration) : Document :=
  Document.record
    [("output_base", Document.text c.base), ("codegen", c.code.toDocument),
      ("allowed_engine_versions", Document.list (c.versions.map Document.text))]

end Configuration

end ExplicitOde
