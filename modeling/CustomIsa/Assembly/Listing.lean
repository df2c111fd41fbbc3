import CustomIsa.Registry.Basic
import CustomIsa.Settings
/-! # Listings

A word is listed as the assembly line of the instruction that it decodes to. A byte stream is listed
word by word: a word that cannot be decoded leaves a line that says so, and a stream that ends
inside a word leaves a last line with the bytes that are there. -/
namespace CustomIsa

namespace Assembly

/-- A register as it is listed. -/
def registerText (settings : ListingSettings) (value : Int) : String :=
  match value with
  | .ofNat n =>
    match Register.abiName? n with
    | some name => if settings.abiNames then name else s!"x{n}"
    | none => s!"x{n}"
  | .negSucc _ => "x" ++ toString value

/-- An immediate as it is listed. -/
def immediateText (settings : ListingSettings) (value : Int) : String :=
  if settings.hexImmediates then
    (if value < 0 then "-0x" else "0x") ++ Text.hex value.natAbs
  else toString value

/-- An operand as it is listed. -/
def operandText (settings : ListingSettings) (bindings : Bindings) (op : Operand) : String :=
  let value := (bindings.get? op.name).getD 0
  match op.kind with
  | .register => registerText settings value
  | .immediate => immediateText settings value

/-- An instruction as it is listed. -/
def render (settings : ListingSettings) (e : Entry) (bindings : Bindings) : String :=
  match e.definition.operands.map (operandText settings bindings) with
  | [] => e.name
  | operands => e.name ++ " " ++ ", ".intercalate operands

/-- A line of a listing: the bytes at an offset and the instruction, or why there is none. -/
structure Line where
  offset : Nat
  bytes : List UInt8
  result : Except Failure String

/-- Bytes as pairs of hexadecimal digits with a space between. -/
def byteText (bytes : List UInt8) : String := " ".intercalate (bytes.map Text.hexByte)

/-- A line as text. -/
def Line.render (l : Line) : String :=
  Text.padLeft 6 (Text.hex l.offset) ++ ":  " ++ Text.padRight 12 (byteText l.bytes) ++
    match l.result with
    | .ok text => text
    | .error failure => s!"<invalid: {failure.message}>"

end Assembly

namespace Registry
open Assembly

/-- Disassembles a word. -/
def disassemble (r : Registry) (settings : ListingSettings) (w : Word) : Except Failure String :=
  (r.decode w).map fun d => Assembly.render settings d.entry d.bindings

/-- Lists the bytes of a stream from an offset on. -/
def listFrom (r : Registry) (settings : ListingSettings) (offset : Nat) : List UInt8 → List Line
  | [] => []
  | b :: bs =>
    match Word.read offset (b :: bs) with
    | .error t => [⟨offset, b :: bs, .error (.truncated t)⟩]
    | .ok w =>
      let n := w.size.bytes
      ⟨offset, (b :: bs).take n, r.disassemble settings w⟩ ::
        listFrom r settings (offset + n) (bs.drop (n - 1))
  termination_by bytes => bytes.length
  decreasing_by simp only [List.length_cons, List.length_drop]; omega

/-- Lists a byte stream. -/
def list (r : Registry) (settings : ListingSettings) (bytes : List UInt8) : List Line :=
  r.listFrom settings 0 bytes

end Registry
end CustomIsa
