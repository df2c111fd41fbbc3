import CustomIsa.Operator
import CustomIsa.Proofs.Expr.Value
/-! # Operators on integers

The exact result of an operator of canonical forms (`DyadicOp.apply`). It is that of the operation
in the source, and folding two constants in 128 bits gives the same value of every type of the
source (`DyadicOp.reduce_fold`). -/
namespace CustomIsa

/-! ## Bitwise operations in two's complement -/

namespace Bits

theorem ofInt_ofNat (w n : Nat) : BitVec.ofInt w (.ofNat n) = BitVec.ofNat w n := by
  rw [Int.ofNat_eq_natCast, BitVec.ofInt_natCast]

theorem ofNat_ldiff (w m n : Nat) :
    BitVec.ofNat w (Nat.ldiff m n) = BitVec.ofNat w m &&& ~~~BitVec.ofNat w n := by
  apply BitVec.eq_of_getLsbD_eq
  intro i hi
  simp only [BitVec.getLsbD_ofNat, BitVec.getLsbD_and, BitVec.getLsbD_not, Nat.testBit_ldiff, hi,
    decide_true, Bool.true_and]

theorem ofInt_land (w : Nat) (a b : Int) :
    BitVec.ofInt w (Int.land a b) = BitVec.ofInt w a &&& BitVec.ofInt w b := by
  cases a <;> cases b <;>
    simp only [Int.land, ofInt_ofNat, BitVec.ofInt_negSucc_eq_not_ofNat, ← Int.ofNat_eq_natCast,
      ofNat_ldiff, BitVec.ofNat_and, BitVec.ofNat_or]
  · rw [BitVec.and_comm]
  · rw [BitVec.not_or]

theorem ofInt_lor (w : Nat) (a b : Int) :
    BitVec.ofInt w (Int.lor a b) = BitVec.ofInt w a ||| BitVec.ofInt w b := by
  cases a <;> cases b <;>
    simp only [Int.lor, ofInt_ofNat, BitVec.ofInt_negSucc_eq_not_ofNat, ← Int.ofNat_eq_natCast,
      ofNat_ldiff, BitVec.ofNat_and, BitVec.ofNat_or]
  · rw [BitVec.not_and, BitVec.not_not, BitVec.or_comm]
  · rw [BitVec.not_and, BitVec.not_not]
  · rw [BitVec.not_and]

theorem ofInt_xor (w : Nat) (a b : Int) :
    BitVec.ofInt w (Int.xor a b) = BitVec.ofInt w a ^^^ BitVec.ofInt w b := by
  apply BitVec.eq_of_getLsbD_eq
  intro i hi
  cases a <;> cases b <;>
    simp [Int.xor, ofInt_ofNat, BitVec.ofInt_negSucc_eq_not_ofNat, ← Int.ofNat_eq_natCast, hi]

/-- A bitwise combination in 128 bits is that of the integers, brought into 128 bits. -/
theorem bitwise128_eq {f : BitVec 128 → BitVec 128 → BitVec 128} {g : Int → Int → Int}
    (h : ∀ a b, BitVec.ofInt 128 (g a b) = f (BitVec.ofInt 128 a) (BitVec.ofInt 128 b))
    (a b : Int) : bitwise128 f a b = wrap128 (g a b) := by
  rw [bitwise128, ← h, BitVec.toInt_ofInt, wrap128]

end Bits

namespace DyadicOp
open Bits

/-- The exact result of an operator. -/
def apply : DyadicOp → Int → Int → Int
  | .mul, a, b => a * b
  | .and, a, b => Int.land a b
  | .or, a, b => Int.lor a b
  | .xor, a, b => Int.xor a b
  | .shl, a, b => a * 2 ^ b.toNat
  | .shr, a, b => a / 2 ^ b.toNat
  | .max, a, b => Max.max a b
  | .min, a, b => Min.min a b
  | .lt, a, b => if a < b then 1 else 0
  | .le, a, b => if a ≤ b then 1 else 0
  | .gt, a, b => if b < a then 1 else 0
  | .ge, a, b => if b ≤ a then 1 else 0
  | .eq, a, b => if a = b then 1 else 0
  | .ne, a, b => if a ≠ b then 1 else 0

/-- The operator computes what the operation of the source does. -/
theorem apply_ofBinary {op : BinaryOp} {op' : DyadicOp} (h : ofBinary? op = some op') (a b : Int) :
    op'.apply a b = op.apply a b := by
  cases op <;> simp only [ofBinary?, Option.some.injEq, reduceCtorEq] at h <;> subst h <;> rfl

theorem apply_comm {op : DyadicOp} (h : op.commutes = true) (a b : Int) :
    op.apply a b = op.apply b a := by
  cases op with
  | mul => exact Int.mul_comm a b
  | and => exact land_comm a b
  | or => cases a <;> cases b <;> simp [apply, Int.lor, Nat.or_comm, Nat.and_comm]
  | xor => cases a <;> cases b <;> simp [apply, Int.xor, Nat.xor_comm]
  | max => exact max_comm a b
  | min => exact min_comm a b
  | eq => simp only [apply, eq_comm]
  | ne => simp only [apply, ne_eq, eq_comm]
  | shl | shr | lt | le | gt | ge => cases h

/-- Shifting by more than all bits is shifting by all bits. -/
theorem ediv_two_pow_min {a : Int} (hlo : -(2 ^ 127 : Int) ≤ a) (hhi : a < 2 ^ 127) (k : Nat) :
    a / 2 ^ Min.min k 127 = a / 2 ^ k := by
  rcases Nat.le_total k 127 with hk | hk
  · rw [Nat.min_eq_left hk]
  · rw [Nat.min_eq_right hk]
    have hpow : (2 : Int) ^ 127 ≤ 2 ^ k := two_pow_le hk
    have hpos : (0 : Int) < 2 ^ k := Int.pow_pos (by decide)
    by_cases hneg : a < 0
    · have hshort : a / 2 ^ 127 = -1 := by omega
      have hlong : a / 2 ^ k = -1 := by
        rw [Int.ediv_eq_iff_of_pos hpos]
        omega
      rw [hshort, hlong]
    · rw [Int.ediv_eq_zero_of_lt (by omega) hhi, Int.ediv_eq_zero_of_lt (by omega) (by omega)]

/-- **Folding constants is exact in every type of the source.** -/
theorem reduce_fold {op : DyadicOp} {ty : IntType} (hty : ty.Proper) {a b v : Int}
    (hlo : -(2 ^ 127 : Int) ≤ a) (hhi : a < 2 ^ 127) (h : op.fold? a b = some v) :
    ty.reduce v = ty.reduce (op.apply a b) := by
  have hwrap : ∀ v', some (wrap128 v') = some v → ty.reduce v = ty.reduce v' := by
    intro v' hv
    obtain rfl := Option.some.inj hv
    exact IntType.reduce_congr hty (IntType.wrap128_modEq hty v')
  have hsame : ∀ v', some v' = some v → ty.reduce v = ty.reduce v' := by
    intro v' hv
    rw [Option.some.inj hv]
  cases op <;> simp only [fold?] at h
  case mul =>
    split at h
    · exact hsame _ h
    · cases h
  case and => exact hwrap _ (bitwise128_eq (ofInt_land 128) a b ▸ h)
  case or => exact hwrap _ (bitwise128_eq (ofInt_lor 128) a b ▸ h)
  case xor => exact hwrap _ (bitwise128_eq (ofInt_xor 128) a b ▸ h)
  case shl =>
    split at h
    · exact hwrap _ h
    · cases h
  case shr =>
    split at h
    · rw [ediv_two_pow_min hlo hhi] at h
      exact hsame _ h
    · cases h
  all_goals
    apply hsame
    simpa [apply, truth] using h

end DyadicOp
end CustomIsa
