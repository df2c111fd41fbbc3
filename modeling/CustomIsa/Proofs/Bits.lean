import CustomIsa.Bits
/-! # Bits of masks

Masks and patterns are compared bit by bit: each of them is described by the bits that it has set,
and two patterns are equal when they have the same bits. -/
namespace CustomIsa.Bits

theorem testBit_lowMask (bits i : Nat) : (lowMask bits).testBit i = decide (i < min bits 64) := by
  rw [lowMask, Nat.testBit_two_pow_sub_one]

/-- A mask of a range that lies in a 32-bit word has exactly the bits of the range. -/
theorem testBit_rangeMask {hi lo : Nat} (hle : lo ≤ hi) (hhi : hi < 32) (i : Nat) :
    (rangeMask hi lo).testBit i = decide (lo ≤ i ∧ i ≤ hi) := by
  rw [rangeMask, if_neg (by omega), Nat.testBit_shiftLeft, Nat.testBit_two_pow_sub_one]
  by_cases h : lo ≤ i
  · simp only [ge_iff_le, h, decide_true, Bool.true_and, true_and, decide_eq_decide]
    omega
  · simp [h]

/-- A union of masks has the bits of the masks and those it started from. -/
theorem testBit_foldl_or {α : Type} (f : α → Nat) (l : List α) (start i : Nat) :
    (l.foldl (fun acc x => acc ||| f x) start).testBit i = true ↔
      start.testBit i = true ∨ ∃ x ∈ l, (f x).testBit i = true := by
  induction l generalizing start with
  | nil => simp
  | cons x l ih =>
    rw [List.foldl_cons, ih, Nat.testBit_or, Bool.or_eq_true, or_assoc]
    simp only [List.mem_cons, exists_eq_or_imp]

/-- Two masks have no bit in common exactly when their conjunction is zero. -/
theorem and_eq_zero_iff (a b : Nat) :
    a &&& b = 0 ↔ ∀ i, a.testBit i = true → b.testBit i = false := by
  constructor
  · intro h i ha
    have hi : (a &&& b).testBit i = false := by rw [h, Nat.zero_testBit]
    rwa [Nat.testBit_and, ha, Bool.true_and] at hi
  · intro h
    apply Nat.eq_of_testBit_eq
    intro i
    rw [Nat.testBit_and, Nat.zero_testBit]
    cases ha : a.testBit i with
    | false => rfl
    | true => rw [h i ha]; rfl

/-- A pattern lies inside a mask exactly when the mask keeps all its bits. -/
theorem and_eq_left_iff (a mask : Nat) :
    a &&& mask = a ↔ ∀ i, a.testBit i = true → mask.testBit i = true := by
  constructor
  · intro h i ha
    rw [← h, Nat.testBit_and, Bool.and_eq_true] at ha
    exact ha.2
  · intro h
    apply Nat.eq_of_testBit_eq
    intro i
    rw [Nat.testBit_and]
    cases ha : a.testBit i with
    | false => rfl
    | true => rw [h i ha]; rfl

/-- The union of two patterns, seen through the mask of the first, is the first, if each keeps to
its mask and they agree on the bits of both masks. -/
theorem or_and_mask_eq {a b maskA maskB : Nat}
    (ha : ∀ i, a.testBit i = true → maskA.testBit i = true)
    (hb : ∀ i, b.testBit i = true → maskB.testBit i = true)
    (hagree : ∀ i, maskA.testBit i = true → maskB.testBit i = true →
      a.testBit i = b.testBit i) : (a ||| b) &&& maskA = a := by
  apply Nat.eq_of_testBit_eq
  intro i
  rw [Nat.testBit_and, Nat.testBit_or]
  cases hmask : maskA.testBit i with
  | false =>
    have hbit : a.testBit i = false := by
      rw [Bool.eq_false_iff]
      intro hset
      rw [ha i hset] at hmask
      cases hmask
    rw [hbit, Bool.and_false]
  | true =>
    cases hbit : b.testBit i with
    | false => rw [Bool.or_false, Bool.and_true]
    | true => rw [hagree i hmask (hb i hbit), hbit, Bool.or_true, Bool.and_true]

theorem testBit_eq_false_of_lt {n k i : Nat} (h : n < 2 ^ k) (hi : k ≤ i) :
    n.testBit i = false :=
  Nat.testBit_lt_two_pow (Nat.lt_of_lt_of_le h (Nat.pow_le_pow_right (by decide) hi))

/-- The two low bits of a pattern are read off its remainder by four. -/
theorem mod_four_eq (n : Nat) :
    n % 4 = (n.testBit 0).toNat + 2 * (n.testBit 1).toNat := by
  have h0 : n.testBit 0 = decide (n % 2 = 1) := Nat.testBit_zero n
  have h1 : n.testBit 1 = decide (n / 2 % 2 = 1) := by
    rw [show (1 : Nat) = 0 + 1 from rfl, Nat.testBit_succ, Nat.testBit_zero]
  rw [h0, h1]
  by_cases a : n % 2 = 1 <;> by_cases b : n / 2 % 2 = 1 <;> simp [a, b] <;> omega

theorem two_pow_le {m n : Nat} (h : m ≤ n) : (2 : Int) ^ m ≤ 2 ^ n := by
  exact_mod_cast Nat.pow_le_pow_right (by decide : 0 < 2) h

/-- The remainder of a two's complement number of `bits` bits, read with its sign, is the number. -/
theorem signExtend_emod {value : Int} {bits : Nat} (hlo : -(2 ^ (bits - 1) : Int) ≤ value)
    (hhi : value < 2 ^ (bits - 1)) (hpos : 1 ≤ bits) (hle : bits ≤ 64) :
    signExtend (value % 2 ^ bits).toNat bits = value := by
  have hpow : (2 : Int) ^ bits = 2 * 2 ^ (bits - 1) := by
    rw [← Int.pow_succ', Nat.sub_add_cancel hpos]
  have hcast : ((2 ^ bits : Nat) : Int) = 2 ^ bits := by simp
  have hnonneg : 0 ≤ value % 2 ^ bits :=
    Int.emod_nonneg _ (Int.pow_ne_zero (by decide))
  rw [signExtend, Nat.min_eq_left hle, Int.toNat_of_nonneg hnonneg, ← hcast, Int.emod_bmod]
  apply Int.bmod_eq_of_le <;> omega

end CustomIsa.Bits
