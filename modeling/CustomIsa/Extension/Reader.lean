import CustomIsa.Definition.Basic
import CustomIsa.Json.Basic
import CustomIsa.Json.Reader
/-! # Reading extension documents

An extension is read from a JSON document. Only the shape of the document is checked here: names,
widths and layouts may be anything. -/
namespace CustomIsa.Extension
open Json

/-- Reads an operand kind. -/
def kind? (j : Json) : Option OperandKind :=
  match choice? j with
  | some "register" => some .register
  | some "immediate" => some .immediate
  | _ => none

/-- Reads a direction. -/
def direction? (j : Json) : Option Direction :=
  match choice? j with
  | some "in" => some .input
  | some "out" => some .output
  | some "inout" | some "in_out" => some .inout
  | _ => none

/-- Reads a word class. -/
def variant? (j : Json) : Option Variant :=
  match choice? j with
  | some "compressed" => some .compressed
  | some "standard" => some .standard
  | some "rv64" => some .rv64
  | _ => none

/-- Reads a marker. -/
def marker? (j : Json) : Option Marker :=
  match j with
  | .object [(some "rounding", base)] => (string? base).map .rounding
  | _ =>
    match choice? j with
    | some "saturating" => some .saturating
    | _ => none

/-- Reads an operand. -/
def operand? (j : Json) : Option Operand := do
  let [name, kind, width, signed, direction, bias] ←
    fields? ["name", "kind", "width", "signed", "direction", "bias"] j | none
  pure {
    name := ← required string? name
    kind := ← required kind? kind
    width := ← required nat32? width
    signed := ← withDefault false bool? signed
    direction := ← withDefault .input direction? direction
    bias := ← withDefault 0 nat32? bias }

/-- Reads a fixed range. -/
def fixedRange? (j : Json) : Option FixedRange := do
  let [hi, lo, value] ← fields? ["hi", "lo", "value"] j | none
  pure {
    hi := ← required nat32? hi
    lo := ← required nat32? lo
    value := ← required nat32? value }

/-- Reads a segment. -/
def segment? (j : Json) : Option Segment := do
  let [operand, hi, lo, offset] ← fields? ["operand", "hi", "lo", "offset"] j | none
  pure {
    operand := ← required string? operand
    hi := ← required nat32? hi
    lo := ← required nat32? lo
    offset := ← withDefault 0 nat32? offset }

/-- Reads a layout. -/
def layout? (j : Json) : Option Layout := do
  let [fixed, fields] ← fields? ["fixed", "fields"] j | none
  pure {
    fixed := ← withDefault [] (list? fixedRange?) fixed
    fields := ← withDefault [] (list? segment?) fields }

/-- Reads a definition. -/
def definition? (j : Json) : Option Definition := do
  let [mnemonic, variant, operands, layout, template, marker, intrinsic] ←
    fields? ["mnemonic", "variant", "operands", "encoding", "template", "marker", "intrinsic"] j
    | none
  pure {
    mnemonic := ← required string? mnemonic
    variant := ← withDefault .standard variant? variant
    operands := ← required (list? operand?) operands
    layout := ← required layout? layout
    template := ← optional? string? template
    marker := ← optional? marker? marker
    intrinsic := ← optional? string? intrinsic }

/-- Reads an extension from a JSON value. -/
def ofJson? (j : Json) : Option Extension := do
  let [label, title, instructions] ← fields? ["namespace", "name", "instructions"] j | none
  pure {
    label := ← required string? label
    title := ← withDefault "" string? title
    instructions := ← withDefault [] (list? definition?) instructions }

/-- Reads an extension from the text of a document. -/
def ofText? (text : String) : Option Extension := (Json.read? text).bind ofJson?

end CustomIsa.Extension
