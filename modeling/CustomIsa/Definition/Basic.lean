import CustomIsa.Layout
import CustomIsa.Operand
import CustomIsa.Word
/-! # Instruction definitions and extensions

A definition is all that is known of one custom instruction: its operands in the order of assembly
text and intrinsic arguments, its layout, and optionally what it computes, whether it is the
rounding form of another definition, and the alias under which C code calls it. An extension is a
namespace with the definitions of its instructions, as a vendor declares them. -/
namespace CustomIsa

/-- The word class of an instruction; `rv64` has 32 bits and exists on 64-bit targets only. -/
inductive Variant where
  | compressed
  | standard
  | rv64
  deriving Repr, DecidableEq

/-- The size of the words of a class. -/
def Variant.wordSize : Variant → WordSize
  | .compressed => .half
  | .standard | .rv64 => .full

/-- A remark on the result: the rounding form of another instruction, or clamped. -/
inductive Marker where
  | rounding (base : String)
  | saturating
  deriving Repr, DecidableEq

/-- The definition of an instruction. -/
structure Definition where
  mnemonic : String
  variant : Variant := .standard
  operands : List Operand
  layout : Layout
  template : Option String := none
  marker : Option Marker := none
  intrinsic : Option String := none
  deriving Repr, DecidableEq

/-- The C prototype of an intrinsic; no result type stands for `void`. -/
structure Signature where
  name : String
  result : Option IntType
  parameters : List IntType
  deriving Repr, DecidableEq

/-- The prototype as C text. -/
def Signature.render (s : Signature) : String :=
  (s.result.elim "void" IntType.cName) ++ " " ++ s.name ++ "(" ++
    ", ".intercalate (s.parameters.map IntType.cName) ++ ")"

namespace Definition

/-- The operand of the given name. -/
def operand? (d : Definition) (name : String) : Option Operand :=
  d.operands.find? (·.name = name)

/-- The position of the operand of the given name. -/
def operandIndex? (d : Definition) (name : String) : Option (Fin d.operands.length) :=
  d.operands.findFinIdx? (·.name = name)

/-- The size of the instruction's words. -/
def wordSize (d : Definition) : WordSize := d.variant.wordSize

/-- How many bits of the word are not fixed. -/
def freeBits (d : Definition) : Nat := d.wordSize.bits - d.layout.fixedCount

/-- The mnemonic of which this is the rounding form. -/
def rounds? (d : Definition) : Option String :=
  match d.marker with
  | some (.rounding base) => some base
  | _ => none

/-- Whether the result is clamped instead of wrapped. -/
def isSaturating (d : Definition) : Bool := d.marker = some .saturating

/-- The operands that the instruction reads, which are the arguments of its intrinsic. -/
def inputs (d : Definition) : List Operand := d.operands.filter Operand.isInput

/-- The register that the instruction writes, if there is exactly one. -/
def registerOutput? (d : Definition) : Option Operand :=
  match d.operands.filter fun op => op.isOutput && op.isRegister with
  | [out] => some out
  | _ => none

/-- The prototype of the intrinsic with the given alias. -/
def signature (d : Definition) (name : String) : Signature where
  name := name
  result := d.registerOutput?.map Operand.cType
  parameters := d.inputs.map Operand.cType

/-- Whether the fixed bits of the definition agree with those of a word of its size. -/
def matchesWord (d : Definition) (w : Word) : Bool :=
  d.wordSize = w.size && w.bits &&& d.layout.mask = d.layout.matchBits

end Definition

/-- An instruction set extension: its namespace, its name for display, and its instructions. -/
structure Extension where
  label : String
  title : String := ""
  instructions : List Definition := []
  deriving Repr, DecidableEq

end CustomIsa
