import CustomIsa.Bits
import CustomIsa.Text.Line
/-! # Integer types

The integer types in which a source program computes: a width in bits and a signedness. Types have
C names; operands narrower than 32 bits are promoted, and of two types the wider one wins. -/
namespace CustomIsa

/-- An integer type: a width in bits, two's complement when `signed`. -/
structure IntType where
  bits : Nat
  signed : Bool
  deriving Repr, DecidableEq, Inhabited

namespace IntType

def u8 : IntType := ⟨8, false⟩
def u16 : IntType := ⟨16, false⟩
def u32 : IntType := ⟨32, false⟩
def u64 : IntType := ⟨64, false⟩
def i8 : IntType := ⟨8, true⟩
def i16 : IntType := ⟨16, true⟩
def i32 : IntType := ⟨32, true⟩
def i64 : IntType := ⟨64, true⟩

/-- The type that a sequence of C words names. -/
def ofWords? : List String → Option IntType
  | ["u8"] | ["uint8_t"] | ["uint8"] | ["unsigned", "char"] => some u8
  | ["u16"] | ["uint16_t"] | ["uint16"] | ["unsigned", "short"] | ["unsigned", "short", "int"] =>
    some u16
  | ["u32"] | ["uint32_t"] | ["uint32"] | ["unsigned"] | ["unsigned", "int"] => some u32
  | ["u64"] | ["uint64_t"] | ["uint64"] | ["unsigned", "long"] | ["unsigned", "long", "long"] =>
    some u64
  | ["i8"] | ["int8_t"] | ["int8"] | ["char"] | ["signed", "char"] => some i8
  | ["i16"] | ["int16_t"] | ["int16"] | ["short"] | ["short", "int"] => some i16
  | ["i32"] | ["int32_t"] | ["int32"] | ["int"] | ["signed"] | ["signed", "int"] => some i32
  | ["i64"] | ["int64_t"] | ["int64"] | ["long"] | ["long", "long"] => some i64
  | _ => none

/-- The type with the given C name, whose words stand between blanks. -/
def ofName? (name : String) : Option IntType :=
  ofWords? ((Text.words name.toList).map String.ofList)

/-- The exact-width C name of the type. -/
def cName (ty : IntType) : String :=
  (if ty.signed then "" else "u") ++ "int" ++ toString ty.bits ++ "_t"

/-- The short name of the type, such as `u8`. -/
def shortName (ty : IntType) : String := (if ty.signed then "i" else "u") ++ toString ty.bits

/-- Integer promotion: at least 32 bits, signedness kept. -/
def promoted (ty : IntType) : IntType := if ty.bits < 32 then ⟨32, ty.signed⟩ else ty

/-- The type of an arithmetic operation on two operands: both are promoted, the wider type wins, and
at equal width the result is signed only if both are. -/
def common (a b : IntType) : IntType :=
  let a := a.promoted
  let b := b.promoted
  if b.bits < a.bits then a
  else if a.bits < b.bits then b
  else ⟨a.bits, a.signed && b.signed⟩

/-- Whether every number of `width` bits, two's complement if `signed`, is a value of the type. -/
def holds (ty : IntType) (width : Nat) (signed : Bool) : Bool :=
  match ty.signed, signed with
  | true, true => width ≤ ty.bits
  | true, false => width < ty.bits
  | false, false => width ≤ ty.bits
  | false, true => false

/-- The value of a constant in the type: modulo `2 ^ bits`, into the signed range for a signed type.
Types of more than 64 bits keep the low 64 bits without a sign, those of 128 and more the value. -/
def reduce (ty : IntType) (value : Int) : Int :=
  if 128 ≤ ty.bits then value
  else if ty.signed ∧ ty.bits ≤ 64 then value.bmod (2 ^ ty.bits)
  else value % 2 ^ min ty.bits 64

end IntType
end CustomIsa
