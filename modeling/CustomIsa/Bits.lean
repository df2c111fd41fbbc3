/-! # Bit patterns and the widths of constants

Masks of 32- and 64-bit patterns, sign extension, and the number of bits that an integer takes.
Patterns are natural numbers below a power of two. Constants of expressions are held in 128 bits:
`wrap128` brings an integer back into that range. -/
namespace CustomIsa

-- in this library powers are those of the numbers themselves, also where numbers are a monoid
attribute [scoped instance (high)] instPowNat

namespace Bits

/-- The pattern with the low `bits` bits set, at most 64 of them. -/
def lowMask (bits : Nat) : Nat := 2 ^ min bits 64 - 1

/-- The bits `hi` down to `lo` of a 32-bit word. -/
def rangeMask (hi lo : Nat) : Nat :=
  if hi < lo ∨ 32 ≤ lo then 0 else (2 ^ (min hi 31 - lo + 1) - 1) <<< lo

/-- The low `bits` bits of a 64-bit pattern, read as a two's complement number. -/
def signExtend (pattern bits : Nat) : Int := (pattern : Int).bmod (2 ^ min bits 64)

/-- Whether a value is an unsigned number of `bits` bits; from 127 bits on every value that is not
negative counts as one. -/
def fitsUnsigned (value : Int) (bits : Nat) : Bool :=
  0 ≤ value && (127 ≤ bits || value < 2 ^ bits)

/-- Whether a value is a two's complement number of `bits` bits; from 127 bits on every value counts
as one. -/
def fitsSigned (value : Int) (bits : Nat) : Bool :=
  bits ≠ 0 && (127 ≤ bits || (-(2 ^ (bits - 1) : Int) ≤ value && value < 2 ^ (bits - 1)))

/-- The number of binary digits of a natural number, none for zero. -/
def bitLength (n : Nat) : Nat := if n = 0 then 0 else n.log2 + 1

/-- The least width that holds a constant, and whether it is a two's complement width: it is for a
negative constant only, and zero takes one bit. -/
def valueWidth : Int → Nat × Bool
  | .ofNat n => (max 1 (bitLength n), false)
  | .negSucc n => (bitLength n + 1, true)

/-- The least power of two that is at least `bits` and at least 8, as a 32-bit number. -/
def storageWidth (bits : Nat) : Nat :=
  if bits ≤ 8 then 8 else 2 ^ bitLength (bits - 1) % 2 ^ (32 : Nat)

/-- The `k` for which a value is `2 ^ k - 1`, where `k` is at least one. -/
def fullMaskWidth? : Int → Option Nat
  | .ofNat n => if 0 < n ∧ n &&& (n + 1) = 0 then some (bitLength n) else none
  | .negSucc _ => none

/-- The 128-bit two's complement number that agrees with `value` modulo `2 ^ 128`. -/
def wrap128 (value : Int) : Int := value.bmod (2 ^ (128 : Nat))

/-- Whether a value is a 128-bit two's complement number. -/
def inInt128 (value : Int) : Bool := -(2 ^ (127 : Nat) : Int) ≤ value && value < 2 ^ (127 : Nat)

/-- Whether a value is a 64-bit two's complement number. -/
def inInt64 (value : Int) : Bool := -(2 ^ (63 : Nat) : Int) ≤ value && value < 2 ^ (63 : Nat)

/-- Bitwise combination of two 128-bit numbers. -/
def bitwise128 (f : BitVec 128 → BitVec 128 → BitVec 128) (a b : Int) : Int :=
  (f (BitVec.ofInt 128 a) (BitVec.ofInt 128 b)).toInt

end Bits
end CustomIsa
