import CustomIsa.Bits
import CustomIsa.IntType
import CustomIsa.Text.Line
import CustomIsa.Text.Numeral
/-! # Registers and operands

The 32 integer registers have numeric names `x0` to `x31` and names of the calling convention;
`fp` is a second name of `s0`.

An operand is a register or an immediate. For a register the width is that of the *value* read or
written, and the bias is the register number that its field holds as zero. -/
namespace CustomIsa

/-! ## Register names -/

namespace Register

/-- The number of integer registers. -/
def count : Nat := 32

/-- The first argument register, `a0`. -/
def firstArgument : Nat := 10

/-- The names of the calling convention, by register number. -/
def abiNames : List String :=
  ["zero", "ra", "sp", "gp", "tp", "t0", "t1", "t2", "s0", "s1", "a0", "a1", "a2", "a3", "a4", "a5",
    "a6", "a7", "s2", "s3", "s4", "s5", "s6", "s7", "s8", "s9", "s10", "s11", "t3", "t4", "t5",
    "t6"]

/-- The calling-convention name of a register. -/
def abiName? (number : Nat) : Option String := abiNames[number]?

/-- The number in a numeric name; leading zeros do not matter. -/
def ofNumericName? : List Char → Option Nat
  | 'x' :: digits => (Text.natOfDigits? 10 digits).filter (· < count)
  | _ => none

/-- The number of the register that a text names, blanks around it aside. -/
def ofName? (text : String) : Option Nat :=
  let name := Text.trimChars text.toList
  if name = "fp".toList then some 8
  else (ofNumericName? name).or (abiNames.findIdx? (·.toList = name))

end Register

/-! ## Operands -/

/-- Whether an operand is a register or an immediate. -/
inductive OperandKind where
  | register
  | immediate
  deriving Repr, DecidableEq

/-- Whether an operand is read, written, or both. -/
inductive Direction where
  | input
  | output
  | inout
  deriving Repr, DecidableEq

/-- An operand of an instruction. -/
structure Operand where
  name : String
  kind : OperandKind
  width : Nat
  signed : Bool := false
  direction : Direction := .input
  bias : Nat := 0
  deriving Repr, DecidableEq

namespace Operand

/-- Whether the instruction reads the operand. -/
def isInput (op : Operand) : Bool := op.direction ≠ .output

/-- Whether the instruction writes the operand. -/
def isOutput (op : Operand) : Bool := op.direction ≠ .input

/-- Whether the operand is a register. -/
def isRegister (op : Operand) : Bool := op.kind = .register

/-- The width that the range of an immediate goes by: at least one bit, at most 63. -/
def rangeWidth (op : Operand) : Nat := max 1 (min op.width 63)

/-- The least and the greatest legal value of an immediate of the operand's width. -/
def immediateRange (op : Operand) : Int × Int :=
  if op.signed then (-(2 ^ (op.rangeWidth - 1) : Int), 2 ^ (op.rangeWidth - 1) - 1)
  else (0, 2 ^ op.rangeWidth - 1)

/-- Whether a value lies in the immediate range. -/
def inRange (op : Operand) (value : Int) : Bool :=
  op.immediateRange.1 ≤ value && value ≤ op.immediateRange.2

/-- The integer type of the operand's value. -/
def valueType (op : Operand) : IntType := ⟨op.width, op.signed⟩

/-- The C type of the operand in a prototype: its width rounded up to a power of two of at
least 8. -/
def cType (op : Operand) : IntType := ⟨Bits.storageWidth op.width, op.signed⟩

end Operand

end CustomIsa
