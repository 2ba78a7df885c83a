import ExplicitOde.Code.Options
import ExplicitOde.Document.Decode

/-!
# Options of generated code as documents

The options are an object of four fields, or a list of them. Absent fields have their default, and
other fields are passed over.
-/

namespace ExplicitOde

/-- The name of a gateway in documents. -/
def Gateway.name : Gateway → String
  | absent => "none"
  | mex => "mex"

/-- The gateways by name. -/
def Gateway.variants : List (String × Gateway) :=
  [absent, mex].map fun g => (g.name, g)

/-- The name of a width in documents. -/
def IntegerWidth.name : IntegerWidth → String
  | int32 => "int32"
  | int64 => "int64"

/-- The widths of integers by name. -/
def IntegerWidth.variants : List (String × IntegerWidth) :=
  [int32, int64].map fun w => (w.name, w)

/-- The name of a width in documents. -/
def FloatWidth.name : FloatWidth → String
  | single => "single"
  | double => "double"

/-- The widths of other numbers by name. -/
def FloatWidth.variants : List (String × FloatWidth) :=
  [single, double].map fun w => (w.name, w)

namespace CodeOptions

/-- Reads a field. -/
def readField (field : String) (value : Document) (o : CodeOptions) :
    Document.Decoded CodeOptions :=
  match field with
  | "interop_target" => do return { o with gateway := ← value.decodeVariant Gateway.variants }
  | "integer_width" => do return { o with integers := ← value.decodeVariant IntegerWidth.variants }
  | "float_width" => do return { o with floats := ← value.decodeVariant FloatWidth.variants }
  | "with_header" => do return { o with header := ← value.decodeBool }
  | _ => .ok o

/-- The form of options. -/
def form : Document.RecordForm CodeOptions where
  name := "CodegenOptions"
  fields := ["interop_target", "integer_width", "float_width", "with_header"]
  required := []
  requiredInList := []
  skipsUnknown := true
  field := readField

/-- The options that a document says. -/
def ofDocument (d : Document) : Document.Decoded CodeOptions :=
  Document.decodeRecord .text form {} d

/-- The options that a text spells. -/
def ofText (text : String) : Document.Decoded CodeOptions :=
  Document.decodeText ofDocument text

/-- Options as a document. -/
def toDocument (o : CodeOptions) : Document :=
  Document.record
    [("interop_target", Document.text o.gateway.name),
      ("integer_width", Document.text o.integers.name),
      ("float_width", Document.text o.floats.name),
      ("with_header", .bool o.header)]

end CodeOptions

end ExplicitOde
