import CustomIsa.Definition.Basic
import CustomIsa.Json.Basic
/-! # Writing extension documents

An extension is written as a JSON document over several lines. Fields with a default are written
too; a template, a marker and an alias only if there is one. -/
namespace CustomIsa.Extension
open Json

/-- The name of an operand kind. -/
def kindName : OperandKind → String
  | .register => "register"
  | .immediate => "immediate"

/-- The name of a direction. -/
def directionName : Direction → String
  | .input => "in"
  | .output => "out"
  | .inout => "inout"

/-- The name of a word class. -/
def variantName : Variant → String
  | .compressed => "compressed"
  | .standard => "standard"
  | .rv64 => "rv64"

/-- A marker as a JSON value. -/
def markerToJson : Marker → Json
  | .rounding base => record [("rounding", text base)]
  | .saturating => text "saturating"

/-- An operand as a JSON value. -/
def operandToJson (op : Operand) : Json :=
  record [("name", text op.name), ("kind", text (kindName op.kind)), ("width", nat op.width),
    ("signed", .bool op.signed), ("direction", text (directionName op.direction)),
    ("bias", nat op.bias)]

/-- A layout as a JSON value. -/
def layoutToJson (l : Layout) : Json :=
  record [
    ("fixed", .array (l.fixed.map fun f =>
      record [("hi", nat f.hi), ("lo", nat f.lo), ("value", nat f.value)])),
    ("fields", .array (l.fields.map fun s =>
      record [("operand", text s.operand), ("hi", nat s.hi), ("lo", nat s.lo),
        ("offset", nat s.offset)]))]

/-- A definition as a JSON value; optional parts are left out when they are absent. -/
def definitionToJson (d : Definition) : Json :=
  record <|
    [("mnemonic", text d.mnemonic), ("variant", text (variantName d.variant)),
      ("operands", .array (d.operands.map operandToJson)), ("encoding", layoutToJson d.layout)] ++
    (d.template.map fun t => ("template", text t)).toList ++
    (d.marker.map fun m => ("marker", markerToJson m)).toList ++
    (d.intrinsic.map fun i => ("intrinsic", text i)).toList

/-- An extension as a JSON value. -/
def toJson (e : Extension) : Json :=
  record [("namespace", text e.label), ("name", text e.title),
    ("instructions", .array (e.instructions.map definitionToJson))]

/-- An extension as the text of a document. -/
def toText (e : Extension) : String := e.toJson.pretty

end CustomIsa.Extension
