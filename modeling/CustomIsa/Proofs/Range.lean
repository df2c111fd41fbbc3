import Mathlib.Algebra.Order.Ring.Abs
import Mathlib.Algebra.Order.Ring.Int
import Mathlib.Data.Int.Bitwise
import Mathlib.Data.Int.ModEq
import CustomIsa.IntType
import CustomIsa.Proofs.Bits
/-! # Numbers of a given width

`Bits.Within width signed v` says that `v` is a number of `width` bits, in two's complement if
`signed`. The lemmas here say how operations on integers widen such numbers, and that reducing into
an integer type gives a value of the type and changes none (`IntType.has_reduce`,
`IntType.reduce_eq_self`). -/
namespace CustomIsa.Bits

/-- The number has `width` bits, in two's complement if `signed`. -/
def Within (width : Nat) (signed : Bool) (v : Int) : Prop :=
  if signed then -(2 ^ (width - 1) : Int) ≤ v ∧ v < 2 ^ (width - 1) else 0 ≤ v ∧ v < 2 ^ width

instance (width : Nat) (signed : Bool) (v : Int) : Decidable (Within width signed v) :=
  inferInstanceAs (Decidable (if signed then _ ∧ _ else _ ∧ _))

variable {w w' : Nat} {s : Bool} {a b v : Int}

theorem within_unsigned : Within w false v ↔ 0 ≤ v ∧ v < 2 ^ w := Iff.rfl

theorem within_signed : Within w true v ↔ -(2 ^ (w - 1) : Int) ≤ v ∧ v < 2 ^ (w - 1) := Iff.rfl

/-- A number of either sign has `w` bits if the number without its sign has one less. -/
theorem within_signed_ofNat {n : Nat} : Within w true (.ofNat n) ↔ n < 2 ^ (w - 1) := by
  have hcast : ((2 ^ (w - 1) : Nat) : Int) = 2 ^ (w - 1) := by push_cast; rfl
  rw [within_signed, ← hcast, Int.ofNat_eq_natCast]
  omega

theorem within_signed_negSucc {n : Nat} : Within w true (.negSucc n) ↔ n < 2 ^ (w - 1) := by
  have hcast : ((2 ^ (w - 1) : Nat) : Int) = 2 ^ (w - 1) := by push_cast; rfl
  rw [within_signed, ← hcast]
  omega

theorem within_unsigned_ofNat {n : Nat} : Within w false (.ofNat n) ↔ n < 2 ^ w := by
  have hcast : ((2 ^ w : Nat) : Int) = 2 ^ w := by push_cast; rfl
  rw [within_unsigned, ← hcast, Int.ofNat_eq_natCast]
  omega

theorem not_within_unsigned_negSucc {n : Nat} : ¬Within w false (.negSucc n) := by
  rw [within_unsigned]
  omega

theorem Within.mono (h : Within w s v) (hle : w ≤ w') : Within w' s v := by
  cases s with
  | false =>
    have hpow := two_pow_le hle
    rw [within_unsigned] at *
    omega
  | true =>
    have hpow := two_pow_le (Nat.sub_le_sub_right hle 1)
    rw [within_signed] at *
    omega

/-- An unsigned number takes one bit more beside a sign. -/
theorem Within.signed (h : Within w false v) : Within (w + 1) true v := by
  rw [within_unsigned] at h
  rw [within_signed, Nat.add_sub_cancel]
  omega

theorem two_pow_pred (h : 1 ≤ w) : (2 : Int) ^ w = 2 * 2 ^ (w - 1) := by
  rw [← Int.pow_succ', Nat.sub_add_cancel h]

theorem Within.magnitude (hw : 1 ≤ w) (h : Within w s v) : -(2 ^ w : Int) ≤ v ∧ v ≤ 2 ^ w := by
  have hpow := two_pow_pred hw
  have hpos : (0 : Int) < 2 ^ (w - 1) := Int.pow_pos (by decide)
  cases s with
  | false =>
    rw [within_unsigned] at h
    omega
  | true =>
    rw [within_signed] at h
    omega

/-! ## Operations -/

theorem Within.add (hw : 1 ≤ w) (ha : Within w s a) (hb : Within w s b) :
    Within (w + 1) s (a + b) := by
  cases s with
  | false =>
    have hpow : (2 : Int) ^ (w + 1) = 2 * 2 ^ w := two_pow_pred (by omega)
    rw [within_unsigned] at *
    omega
  | true =>
    have hpow := two_pow_pred hw
    rw [within_signed] at *
    rw [Nat.add_sub_cancel]
    omega

theorem Within.sub (hw : 1 ≤ w) (ha : Within w s a) (hb : Within w s b) :
    Within (w + 1) true (a - b) := by
  rw [within_signed, Nat.add_sub_cancel]
  cases s with
  | false =>
    rw [within_unsigned] at ha hb
    omega
  | true =>
    have hpow := two_pow_pred hw
    rw [within_signed] at ha hb
    omega

theorem within_zero (w : Nat) (s : Bool) : Within w s 0 := by
  have hpos : (0 : Int) < 2 ^ w := Int.pow_pos (by decide)
  have hpos' : (0 : Int) < 2 ^ (w - 1) := Int.pow_pos (by decide)
  cases s with
  | false => rw [within_unsigned]; omega
  | true => rw [within_signed]; omega

theorem Within.neg (hw : 1 ≤ w) (ha : Within w s a) : Within (w + 1) true (-a) := by
  rw [← Int.zero_sub]
  exact (within_zero w s).sub hw ha

theorem Within.complement (ha : Within w true a) : Within w true (-a - 1) := by
  rw [within_signed] at *
  omega

theorem Within.mul_unsigned (ha : Within w false a) (hb : Within w' false b) :
    Within (w + w') false (a * b) := by
  rw [within_unsigned] at *
  refine ⟨Int.mul_nonneg ha.1 hb.1, ?_⟩
  rw [Int.pow_add]
  exact mul_lt_mul'' ha.2 hb.2 ha.1 hb.1

theorem Within.mul_signed (hw : 1 ≤ w) (hw' : 1 ≤ w') (ha : Within w true a)
    (hb : Within w' true b) : Within (w + w') true (a * b) := by
  rw [within_signed] at *
  have habs : |a * b| ≤ 2 ^ (w - 1) * 2 ^ (w' - 1) := by
    rw [abs_mul]
    exact mul_le_mul (abs_le.mpr ⟨by omega, by omega⟩) (abs_le.mpr ⟨by omega, by omega⟩)
      (abs_nonneg b) (Int.pow_nonneg (by decide))
  have hpow : (2 : Int) ^ (w + w' - 1) = 2 * (2 ^ (w - 1) * 2 ^ (w' - 1)) := by
    rw [← Int.pow_add, ← Int.pow_succ']
    congr 1
    omega
  have hpos : (0 : Int) < 2 ^ (w - 1) * 2 ^ (w' - 1) :=
    Int.mul_pos (Int.pow_pos (by decide)) (Int.pow_pos (by decide))
  have hbounds := abs_le.mp habs
  omega

theorem Within.shiftLeft (hw : 1 ≤ w) (ha : Within w s a) (k : Nat) :
    Within (w + k) s (a * 2 ^ k) := by
  have hpos : (0 : Int) < 2 ^ k := Int.pow_pos (by decide)
  cases s with
  | false =>
    rw [within_unsigned] at *
    rw [Int.pow_add]
    exact ⟨Int.mul_nonneg ha.1 (Int.le_of_lt hpos), Int.mul_lt_mul_of_pos_right ha.2 hpos⟩
  | true =>
    rw [within_signed] at *
    rw [Nat.sub_add_comm hw, Int.pow_add, ← Int.neg_mul]
    exact ⟨Int.mul_le_mul_of_nonneg_right ha.1 (Int.le_of_lt hpos),
      Int.mul_lt_mul_of_pos_right ha.2 hpos⟩

theorem Within.shiftRight (ha : Within w s a) (k : Nat) :
    Within (max 1 (w - k)) s (a / 2 ^ k) := by
  have hpos : (0 : Int) < 2 ^ k := Int.pow_pos (by decide)
  -- a shift by all bits leaves zero, or minus one of a negative number
  have hsplit : ∀ n, (2 : Int) ^ n ≤ 2 ^ (n - k) * 2 ^ k := by
    intro n
    rw [← Int.pow_add]
    exact two_pow_le (by omega)
  cases s with
  | false =>
    rw [within_unsigned] at *
    refine ⟨Int.ediv_nonneg ha.1 (Int.le_of_lt hpos), ?_⟩
    calc a / 2 ^ k < 2 ^ (w - k) := Int.ediv_lt_of_lt_mul hpos (Int.lt_of_lt_of_le ha.2 (hsplit w))
      _ ≤ 2 ^ max 1 (w - k) := two_pow_le (by omega)
  | true =>
    rw [within_signed] at *
    have hwidth : max 1 (w - k) - 1 = w - 1 - k := by omega
    rw [hwidth]
    refine ⟨?_, Int.ediv_lt_of_lt_mul hpos (Int.lt_of_lt_of_le ha.2 (hsplit (w - 1)))⟩
    apply Int.le_ediv_of_mul_le hpos
    have hlow := hsplit (w - 1)
    rw [Int.neg_mul]
    omega

theorem Within.shiftRight_le (hw : 1 ≤ w) (ha : Within w s a) (k : Nat) : Within w s (a / 2 ^ k) :=
  (ha.shiftRight k).mono (by omega)

/-! ## Bitwise operations

On numbers without their signs these are bitwise operations again, which set no new bits. -/

theorem ldiff_lt {m k : Nat} (h : m < 2 ^ k) (n : Nat) : Nat.ldiff m n < 2 ^ k := by
  apply Nat.lt_pow_two_of_testBit
  intro i hi
  rw [Nat.testBit_ldiff, testBit_eq_false_of_lt h hi, Bool.false_and]

theorem land_comm (a b : Int) : Int.land a b = Int.land b a := by
  cases a <;> cases b <;> simp [Int.land, Nat.and_comm, Nat.or_comm]

/-- A conjunction is bounded by an operand that is not negative. -/
theorem Within.land_unsigned (ha : Within w false a) (b : Int) :
    Within w false (Int.land a b) := by
  cases a with
  | negSucc m => exact absurd ha not_within_unsigned_negSucc
  | ofNat m =>
    rw [within_unsigned_ofNat] at ha
    cases b with
    | ofNat n => exact within_unsigned_ofNat.mpr (Nat.lt_of_le_of_lt Nat.and_le_left ha)
    | negSucc n => exact within_unsigned_ofNat.mpr (ldiff_lt ha n)

theorem Within.land_signed (ha : Within w true a) (hb : Within w true b) :
    Within w true (Int.land a b) := by
  cases a with
  | ofNat m =>
    rw [within_signed_ofNat] at ha
    cases b with
    | ofNat n => exact within_signed_ofNat.mpr (Nat.lt_of_le_of_lt Nat.and_le_left ha)
    | negSucc n => exact within_signed_ofNat.mpr (ldiff_lt ha n)
  | negSucc m =>
    rw [within_signed_negSucc] at ha
    cases b with
    | ofNat n => exact within_signed_ofNat.mpr (ldiff_lt (within_signed_ofNat.mp hb) m)
    | negSucc n =>
      exact within_signed_negSucc.mpr (Nat.or_lt_two_pow ha (within_signed_negSucc.mp hb))

theorem Within.lor (ha : Within w s a) (hb : Within w s b) : Within w s (Int.lor a b) := by
  cases s with
  | false =>
    cases a with
    | negSucc m => exact absurd ha not_within_unsigned_negSucc
    | ofNat m =>
      cases b with
      | negSucc n => exact absurd hb not_within_unsigned_negSucc
      | ofNat n =>
        rw [within_unsigned_ofNat] at ha hb
        exact within_unsigned_ofNat.mpr (Nat.or_lt_two_pow ha hb)
  | true =>
    cases a with
    | ofNat m =>
      rw [within_signed_ofNat] at ha
      cases b with
      | ofNat n =>
        exact within_signed_ofNat.mpr (Nat.or_lt_two_pow ha (within_signed_ofNat.mp hb))
      | negSucc n => exact within_signed_negSucc.mpr (ldiff_lt (within_signed_negSucc.mp hb) m)
    | negSucc m =>
      rw [within_signed_negSucc] at ha
      cases b with
      | ofNat n => exact within_signed_negSucc.mpr (ldiff_lt ha n)
      | negSucc n => exact within_signed_negSucc.mpr (Nat.lt_of_le_of_lt Nat.and_le_left ha)

theorem Within.xor (ha : Within w s a) (hb : Within w s b) : Within w s (Int.xor a b) := by
  cases s with
  | false =>
    cases a with
    | negSucc m => exact absurd ha not_within_unsigned_negSucc
    | ofNat m =>
      cases b with
      | negSucc n => exact absurd hb not_within_unsigned_negSucc
      | ofNat n =>
        rw [within_unsigned_ofNat] at ha hb
        exact within_unsigned_ofNat.mpr (Nat.xor_lt_two_pow ha hb)
  | true =>
    cases a with
    | ofNat m =>
      rw [within_signed_ofNat] at ha
      cases b with
      | ofNat n =>
        exact within_signed_ofNat.mpr (Nat.xor_lt_two_pow ha (within_signed_ofNat.mp hb))
      | negSucc n =>
        exact within_signed_negSucc.mpr (Nat.xor_lt_two_pow ha (within_signed_negSucc.mp hb))
    | negSucc m =>
      rw [within_signed_negSucc] at ha
      cases b with
      | ofNat n =>
        exact within_signed_negSucc.mpr (Nat.xor_lt_two_pow ha (within_signed_ofNat.mp hb))
      | negSucc n =>
        exact within_signed_ofNat.mpr (Nat.xor_lt_two_pow ha (within_signed_negSucc.mp hb))

/-! ## Masks -/

/-- A full mask has all bits below its width and no other. -/
theorem eq_of_fullMaskWidth {k : Nat} (h : fullMaskWidth? v = some k) :
    v = .ofNat (2 ^ k - 1) := by
  cases v with
  | negSucc n => cases h
  | ofNat n =>
    rw [fullMaskWidth?] at h
    split at h
    · rename_i hmask
      obtain ⟨hpos, hand⟩ := hmask
      have hk : k = n.log2 + 1 := by
        rw [← Option.some.inj h, bitLength, if_neg (by omega)]
      subst hk
      have hlow : 2 ^ n.log2 ≤ n := Nat.log2_self_le (by omega)
      have hhigh : n < 2 ^ (n.log2 + 1) := Nat.lt_log2_self
      -- otherwise the mask and its successor have their topmost bit in common
      by_contra hne
      have hsucc : n + 1 < 2 ^ (n.log2 + 1) := by
        have hne' : n ≠ 2 ^ (n.log2 + 1) - 1 := fun heq => hne (congrArg Int.ofNat heq)
        omega
      have hbit := (and_eq_zero_iff n (n + 1)).mp hand n.log2
        (Nat.testBit_of_two_pow_le_and_two_pow_add_one_gt hlow hhigh)
      rw [Nat.testBit_of_two_pow_le_and_two_pow_add_one_gt (by omega) hsucc] at hbit
      cases hbit
    · cases h

/-- A full mask keeps every number of its width. -/
theorem land_fullMask {k : Nat} (h : fullMaskWidth? v = some k) (ha : Within k false a) :
    Int.land a v = a := by
  rw [eq_of_fullMaskWidth h]
  cases a with
  | negSucc m => exact absurd ha not_within_unsigned_negSucc
  | ofNat m =>
    rw [within_unsigned_ofNat] at ha
    exact congrArg Int.ofNat (Nat.and_two_pow_sub_one_of_lt_two_pow ha)

/-! ## Constants -/

theorem wrap128_eq_self (hlo : -(2 ^ 127 : Int) ≤ v) (hhi : v < 2 ^ 127) : wrap128 v = v :=
  Int.bmod_eq_of_le (by omega) (by omega)

/-- A natural number has at most `k` binary digits exactly if it is below `2 ^ k`. -/
theorem bitLength_le_iff {n k : Nat} : bitLength n ≤ k ↔ n < 2 ^ k := by
  rw [bitLength]
  split
  · rename_i hzero
    simp [hzero]
  · rename_i hne
    rw [Nat.succ_le_iff, Nat.log2_lt hne]

theorem lt_two_pow_bitLength (n : Nat) : n < 2 ^ bitLength n :=
  bitLength_le_iff.mp (Nat.le_refl _)

theorem within_valueWidth (v : Int) : Within (valueWidth v).1 (valueWidth v).2 v := by
  cases v with
  | ofNat n =>
    exact (within_unsigned_ofNat.mpr (lt_two_pow_bitLength n)).mono (Nat.le_max_right _ _)
  | negSucc n => exact within_signed_negSucc.mpr (lt_two_pow_bitLength n)

/-- **The width of a constant is the least one that holds it.** -/
theorem valueWidth_le_iff (hw : 1 ≤ w) :
    (valueWidth v).1 ≤ w ↔ Within w (valueWidth v).2 v := by
  cases v with
  | ofNat n =>
    rw [valueWidth, Nat.max_le, and_iff_right hw, bitLength_le_iff]
    exact within_unsigned_ofNat.symm
  | negSucc n =>
    rw [valueWidth, ← Nat.le_sub_iff_add_le hw, bitLength_le_iff]
    exact within_signed_negSucc.symm

theorem valueWidth_signed_iff : (valueWidth v).2 = true ↔ v < 0 := by
  cases v with
  | ofNat n => exact iff_of_false Bool.false_ne_true (Int.not_lt.mpr (Int.natCast_nonneg n))
  | negSucc n => exact iff_of_true rfl (Int.negSucc_lt_zero n)

/-! ## Fit tests

A test that lets every value pass from some width on is exact as long as all values have that width.
Constants have 128 bits: those that are not negative are numbers of 127 bits, but of either sign
they take all 128. -/

theorem fitsUnsigned_iff_within (hlt : w < 127) : fitsUnsigned v w = true ↔ Within w false v := by
  simp [fitsUnsigned, within_unsigned, Nat.not_le.mpr hlt]

theorem fitsSigned_iff_within (hw : 1 ≤ w) (hlt : w < 127) :
    fitsSigned v w = true ↔ Within w true v := by
  simp [fitsSigned, within_signed, Nat.not_le.mpr hlt, Nat.ne_of_gt hw]

theorem within_of_inInt128 (hv : inInt128 v = true) : Within 128 true v := by
  simpa [inInt128, within_signed] using hv

/-- The test for unsigned numbers is exact at every width. -/
theorem fitsUnsigned_iff (hv : inInt128 v = true) : fitsUnsigned v w = true ↔ Within w false v := by
  rcases Nat.lt_or_ge w 127 with hlt | hge
  · exact fitsUnsigned_iff_within hlt
  · have hhigh : v < 2 ^ 127 := (within_of_inInt128 hv).2
    have hpow : (2 : Int) ^ 127 ≤ 2 ^ w := two_pow_le hge
    simp only [fitsUnsigned, within_unsigned, hge, decide_true, Bool.true_or, Bool.and_true,
      decide_eq_true_eq]
    omega

/-- The test for two's complement numbers is exact except at 127 bits, where everything passes. -/
theorem fitsSigned_iff (hv : inInt128 v = true) (hw : 1 ≤ w) :
    fitsSigned v w = true ↔ Within w true v ∨ w = 127 := by
  rcases Nat.lt_or_ge w 127 with hlt | hge
  · rw [fitsSigned_iff_within hw hlt, or_iff_left (Nat.ne_of_lt hlt)]
  · refine iff_of_true ?_ ?_
    · simp [fitsSigned, hge, Nat.ne_of_gt hw]
    · rcases Nat.eq_or_lt_of_le hge with heq | hgt
      · exact .inr heq.symm
      · exact .inl ((within_of_inInt128 hv).mono hgt)

/-- **The width of a constant agrees with the fit tests.** For every constant and every width: one
that is not negative passes the test for unsigned numbers exactly if its width is at most that, and
a negative one passes the test for two's complement numbers exactly if its width is, where at 127
bits all constants pass the latter test. -/
theorem fits_iff_valueWidth_le (hv : inInt128 v = true) (hw : 1 ≤ w) :
    (0 ≤ v → (valueWidth v).2 = false ∧ (fitsUnsigned v w = true ↔ (valueWidth v).1 ≤ w)) ∧
    (v < 0 → (valueWidth v).2 = true ∧
      (fitsSigned v w = true ↔ (valueWidth v).1 ≤ w ∨ w = 127)) ∧
    (fitsSigned v w = true ↔ (-(2 ^ (w - 1) : Int) ≤ v ∧ v < 2 ^ (w - 1)) ∨ w = 127) := by
  refine ⟨fun hpos => ?_, fun hneg => ?_, fitsSigned_iff hv hw⟩
  · have hsign : (valueWidth v).2 = false := by
      rw [← Bool.not_eq_true, valueWidth_signed_iff]
      exact Int.not_lt.mpr hpos
    rw [valueWidth_le_iff hw, hsign]
    exact ⟨rfl, fitsUnsigned_iff hv⟩
  · have hsign := valueWidth_signed_iff.mpr hneg
    rw [valueWidth_le_iff hw, hsign]
    exact ⟨rfl, fitsSigned_iff hv hw⟩

/-- The least constant takes all 128 bits. -/
theorem fits_iff_valueWidth_le_least :
    inInt128 (-2 ^ 127) = true ∧ valueWidth (-2 ^ 127) = (128, true) ∧
      (fitsSigned (-2 ^ 127) 128 = true ↔ (valueWidth (-2 ^ 127)).1 ≤ 128 ∨ 128 = 127) ∧
      (fitsSigned (-2 ^ 127) 126 = true ↔ (valueWidth (-2 ^ 127)).1 ≤ 126 ∨ 126 = 127) :=
  ⟨by decide, by decide, ((fits_iff_valueWidth_le (by decide) (by decide)).2.1 (by decide)).2,
    ((fits_iff_valueWidth_le (by decide) (by decide)).2.1 (by decide)).2⟩

/-- **At 127 bits numbers of 128 bits pass**, on both sides of the range. -/
theorem fitsSigned_beyond_range :
    inInt128 (2 ^ 126) = true ∧ fitsSigned (2 ^ 126) 127 = true ∧
      ¬(2 ^ 126 : Int) < 2 ^ (127 - 1) ∧
      inInt128 (-2 ^ 127) = true ∧ fitsSigned (-2 ^ 127) 127 = true ∧
      ¬(valueWidth (-2 ^ 127)).1 ≤ 127 := by
  decide

end CustomIsa.Bits

/-! ## Integer types -/

namespace CustomIsa.IntType
open Bits
variable {ty : IntType} {v : Int}

/-- The type has between 1 and 64 bits. -/
def Proper (ty : IntType) : Prop := 1 ≤ ty.bits ∧ ty.bits ≤ 64

instance (ty : IntType) : Decidable ty.Proper := inferInstanceAs (Decidable (_ ∧ _))

/-- The number is a value of the type. -/
def Has (ty : IntType) (v : Int) : Prop := Within ty.bits ty.signed v

instance (ty : IntType) (v : Int) : Decidable (ty.Has v) :=
  inferInstanceAs (Decidable (Within _ _ _))

/-- A type that holds a width has all numbers of that width. -/
theorem has_of_holds {w : Nat} {s : Bool} (h : ty.holds w s = true) (hv : Within w s v) :
    ty.Has v := by
  obtain ⟨bits, signed⟩ := ty
  cases signed <;> cases s <;> simp only [holds, decide_eq_true_eq, reduceCtorEq] at h
  · exact hv.mono h
  · exact hv.signed.mono h
  · exact hv.mono h

theorem holds_self (ty : IntType) : ty.holds ty.bits ty.signed = true := by
  obtain ⟨bits, signed⟩ := ty
  cases signed <;> simp [holds]

theorem reduce_unsigned {bits : Nat} (h : bits ≤ 64) (v : Int) :
    reduce ⟨bits, false⟩ v = v % 2 ^ bits := by
  rw [reduce, if_neg (by simp only; omega), if_neg (by simp), Nat.min_eq_left h]

theorem reduce_signed {bits : Nat} (h : bits ≤ 64) (v : Int) :
    reduce ⟨bits, true⟩ v = v.bmod (2 ^ bits) := by
  rw [reduce, if_neg (by simp only; omega), if_pos ⟨rfl, h⟩]

theorem has_reduce (h : ty.Proper) (v : Int) : ty.Has (ty.reduce v) := by
  obtain ⟨bits, signed⟩ := ty
  obtain ⟨hlo, hhi⟩ : 1 ≤ bits ∧ bits ≤ 64 := h
  have hcast : ((2 ^ bits : Nat) : Int) = 2 ^ bits := by push_cast; rfl
  have hpos : (0 : Int) < 2 ^ bits := Int.pow_pos (by decide)
  cases signed with
  | false =>
    rw [reduce_unsigned hhi]
    exact ⟨Int.emod_nonneg _ (by omega), Int.emod_lt_of_pos _ hpos⟩
  | true =>
    rw [reduce_signed hhi]
    have hpow := two_pow_pred hlo
    have hge := Int.le_bmod (x := v) (m := 2 ^ bits) (by omega)
    have hlt := Int.bmod_lt (x := v) (m := 2 ^ bits) (by omega)
    show -(2 ^ (bits - 1) : Int) ≤ _ ∧ _ < (2 : Int) ^ (bits - 1)
    omega

theorem reduce_eq_self (h : ty.Proper) (hv : ty.Has v) : ty.reduce v = v := by
  obtain ⟨bits, signed⟩ := ty
  obtain ⟨hlo, hhi⟩ : 1 ≤ bits ∧ bits ≤ 64 := h
  have hcast : ((2 ^ bits : Nat) : Int) = 2 ^ bits := by push_cast; rfl
  cases signed with
  | false =>
    rw [reduce_unsigned hhi]
    exact Int.emod_eq_of_lt hv.1 hv.2
  | true =>
    rw [reduce_signed hhi]
    have hpow := two_pow_pred hlo
    obtain ⟨hge, hlt⟩ : -(2 ^ (bits - 1) : Int) ≤ v ∧ v < 2 ^ (bits - 1) := hv
    exact Int.bmod_eq_of_le (by omega) (by omega)

/-- Reducing keeps a number modulo the size of the type. -/
theorem reduce_modEq (h : ty.Proper) (v : Int) : ty.reduce v ≡ v [ZMOD 2 ^ ty.bits] := by
  obtain ⟨bits, signed⟩ := ty
  obtain ⟨-, hhi⟩ : 1 ≤ bits ∧ bits ≤ 64 := h
  cases signed with
  | false =>
    rw [reduce_unsigned hhi]
    exact Int.mod_modEq _ _
  | true =>
    rw [reduce_signed hhi]
    have hmod := Int.bmod_emod (x := v) (m := 2 ^ bits)
    push_cast at hmod
    exact hmod

/-- Numbers that agree modulo the size of the type are reduced alike. -/
theorem reduce_congr (h : ty.Proper) {v' : Int} (hv : v ≡ v' [ZMOD 2 ^ ty.bits]) :
    ty.reduce v = ty.reduce v' := by
  obtain ⟨bits, signed⟩ := ty
  obtain ⟨-, hhi⟩ : 1 ≤ bits ∧ bits ≤ 64 := h
  cases signed with
  | false =>
    rw [reduce_unsigned hhi, reduce_unsigned hhi]
    exact hv
  | true =>
    have hmod : v % ((2 ^ bits : Nat) : Int) = v' % ((2 ^ bits : Nat) : Int) := by
      push_cast
      exact hv
    rw [reduce_signed hhi, reduce_signed hhi, ← Int.emod_bmod, hmod, Int.emod_bmod]

theorem reduce_eq_iff (h : ty.Proper) {v' : Int} :
    ty.reduce v = ty.reduce v' ↔ v ≡ v' [ZMOD 2 ^ ty.bits] := by
  refine ⟨fun heq => ?_, reduce_congr h⟩
  exact (reduce_modEq h v).symm.trans (heq ▸ reduce_modEq h v')

/-- A value of a type has at most 64 bits. -/
theorem magnitude_of_has (h : ty.Proper) (hv : ty.Has v) : -(2 ^ 64 : Int) ≤ v ∧ v ≤ 2 ^ 64 := by
  have habs := Within.magnitude h.1 hv
  have hpow : (2 : Int) ^ ty.bits ≤ 2 ^ 64 := two_pow_le h.2
  omega

theorem reduce_zero (h : ty.Proper) : ty.reduce 0 = 0 := reduce_eq_self h (within_zero _ _)

theorem reduce_one_ne_zero (h : ty.Proper) : ty.reduce 1 ≠ 0 := by
  intro hzero
  have hmod := reduce_modEq h 1
  rw [hzero] at hmod
  have hdvd : (2 : Int) ∣ 1 := (dvd_pow_self 2 (Nat.ne_of_gt h.1)).trans hmod.dvd
  omega

/-- A 128-bit number is reduced like the number it stands for. -/
theorem wrap128_modEq (h : ty.Proper) (v : Int) : wrap128 v ≡ v [ZMOD 2 ^ ty.bits] := by
  have hmod : wrap128 v ≡ v [ZMOD 2 ^ 128] := by
    have hmod := Int.bmod_emod (x := v) (m := 2 ^ 128)
    push_cast at hmod
    exact hmod
  exact hmod.of_dvd (pow_dvd_pow 2 (Nat.le_trans h.2 (by decide)))

theorem Proper.promoted (h : ty.Proper) : ty.promoted.Proper := by
  rw [IntType.promoted]
  split
  · exact (⟨by decide, by decide⟩ : 1 ≤ 32 ∧ 32 ≤ 64)
  · exact h

/-- The complement of a value is a value of the promoted type, if that is signed. -/
theorem has_complement (hv : ty.Has v) (hs : ty.promoted.signed = true) :
    ty.promoted.Has (-v - 1) := by
  obtain ⟨bits, signed⟩ := ty
  rw [IntType.promoted] at hs ⊢
  split at hs
  · rename_i hlt
    obtain rfl : signed = true := hs
    rw [if_pos hlt]
    exact hv.complement.mono (Nat.le_of_lt hlt)
  · rename_i hlt
    obtain rfl : signed = true := hs
    rw [if_neg hlt]
    exact hv.complement

theorem Proper.common {ty' : IntType} (h : ty.Proper) (h' : ty'.Proper) :
    (ty.common ty').Proper := by
  simp only [IntType.common]
  split
  · exact h.promoted
  · split
    · exact h'.promoted
    · exact h.promoted

theorem proper_i32 : i32.Proper := ⟨by decide, by decide⟩

end CustomIsa.IntType
