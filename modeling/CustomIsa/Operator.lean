import CustomIsa.Expr.Basic
/-! # Operators of canonical forms and templates

Canonical forms and templates share their operators: those of expressions other than addition and
subtraction, which are gathered in sums, and in addition truncation, maximum and minimum. -/
namespace CustomIsa

/-- Operators with one operand. -/
inductive MonadicOp where
  | not
  | trunc (bits : Nat)
  deriving Repr, DecidableEq

/-- Operators with two operands. -/
inductive DyadicOp where
  | mul
  | and
  | or
  | xor
  | shl
  | shr
  | max
  | min
  | lt
  | le
  | gt
  | ge
  | eq
  | ne
  deriving Repr, DecidableEq

/-- How the operator is named in a key. -/
def MonadicOp.keyName : MonadicOp → String
  | .not => "Not"
  | .trunc bits => s!"Trunc({bits})"

namespace DyadicOp

/-- How the operator is named in a key. -/
def keyName : DyadicOp → String
  | .mul => "Mul"
  | .and => "And"
  | .or => "Or"
  | .xor => "Xor"
  | .shl => "Shl"
  | .shr => "Shr"
  | .max => "Max"
  | .min => "Min"
  | .lt => "Lt"
  | .le => "Le"
  | .gt => "Gt"
  | .ge => "Ge"
  | .eq => "Eq"
  | .ne => "Ne"

/-- Whether the operands may change places. -/
def commutes : DyadicOp → Bool
  | .mul | .and | .or | .xor | .max | .min | .eq | .ne => true
  | .shl | .shr | .lt | .le | .gt | .ge => false

/-- The operator of a binary operation that is neither an addition nor a subtraction. -/
def ofBinary? : BinaryOp → Option DyadicOp
  | .add | .sub => none
  | .mul => some .mul
  | .and => some .and
  | .or => some .or
  | .xor => some .xor
  | .shl => some .shl
  | .shr => some .shr
  | .lt => some .lt
  | .le => some .le
  | .gt => some .gt
  | .ge => some .ge
  | .eq => some .eq
  | .ne => some .ne

/-- The truth value of a comparison as a number. -/
def truth (b : Bool) : Int := if b then 1 else 0

/-- The operator applied to two constants, within 128 bits; a product that leaves them and a shift
by an amount out of range have no value. -/
def fold? (op : DyadicOp) (a b : Int) : Option Int :=
  match op with
  | .mul => if Bits.inInt128 (a * b) then some (a * b) else none
  | .and => some (Bits.bitwise128 (· &&& ·) a b)
  | .or => some (Bits.bitwise128 (· ||| ·) a b)
  | .xor => some (Bits.bitwise128 (· ^^^ ·) a b)
  | .shl => if 0 ≤ b ∧ b < 127 then some (Bits.wrap128 (a * 2 ^ b.toNat)) else none
  | .shr => if 0 ≤ b ∧ b < 2 ^ (32 : Nat) then some (a / 2 ^ (Min.min b.toNat 127)) else none
  | .lt => some (truth (a < b))
  | .le => some (truth (a ≤ b))
  | .gt => some (truth (b < a))
  | .ge => some (truth (b ≤ a))
  | .eq => some (truth (a = b))
  | .ne => some (truth (a ≠ b))
  | .max => some (Max.max a b)
  | .min => some (Min.min a b)

end DyadicOp
end CustomIsa
