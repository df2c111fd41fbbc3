import Mathlib.Algebra.BigOperators.Group.List.Basic
import Mathlib.Algebra.GroupWithZero.Nat
import CustomIsa.Proofs.Codec
import CustomIsa.Proofs.Layout
import CustomIsa.Word
/-! # Layouts divide words

A layout divides a word if each bit of the word belongs to exactly one of its ranges
(`Layout.Divides`), counted with repetitions: no two ranges meet, and none is listed twice. The
check accepts exactly the layouts that divide the word and announce its size, and for those the
masks are sets of bits of the word (`Layout.check_exact`).

Numbers of bits are compared by counting the pairs of a bit and a range that it belongs to, range by
range and bit by bit (`Layout.sum_countP_comm`). -/
namespace CustomIsa
namespace Layout

/-- How many fixed ranges and segments bit `i` belongs to. -/
def owners (l : Layout) (i : Nat) : Nat :=
  l.fixed.countP (fun f => f.lo ≤ i ∧ i ≤ f.hi) + l.fields.countP (fun s => s.lo ≤ i ∧ i ≤ s.hi)

/-- Bit `i` lies in a fixed range, whose value has `b` in that place. -/
def FixesTo (l : Layout) (i : Nat) (b : Bool) : Prop :=
  ∃ f ∈ l.fixed, f.Has i ∧ f.value.testBit (i - f.lo) = b

/-- The two low bits are fixed to `0b11` for a word of 32 bits, and to something else for one of
16. -/
def FixesSize (l : Layout) : WordSize → Prop
  | .full => l.FixesTo 0 true ∧ l.FixesTo 1 true
  | .half => ∃ b₀ b₁, l.FixesTo 0 b₀ ∧ l.FixesTo 1 b₁ ∧ ¬(b₀ = true ∧ b₁ = true)

/-- The ranges lie in a word of the given size, each bit of the word belongs to exactly one of them,
every fixed value fits its range, and the low bits are fixed as the size demands. -/
structure Divides (l : Layout) (size : WordSize) : Prop where
  fixed_within : ∀ f ∈ l.fixed, f.lo ≤ f.hi ∧ f.hi < size.bits
  field_within : ∀ s ∈ l.fields, s.lo ≤ s.hi ∧ s.hi < size.bits
  once : ∀ i, i < size.bits → l.owners i = 1
  fits : ∀ f ∈ l.fixed, f.value < 2 ^ (f.hi - f.lo + 1)
  size_fixed : l.FixesSize size

/-! ## Each bit once -/

/-- Members of a list share no bit exactly if no bit belongs to two of them. -/
theorem pairwise_apart_iff {α : Type} {P : α → Nat → Prop} [∀ a i, Decidable (P a i)] {l : List α} :
    (l.Pairwise fun a b => ∀ i, P a i → ¬P b i) ↔ ∀ i, l.countP (P · i) ≤ 1 := by
  induction l with
  | nil => simp
  | cons a l ih =>
    have hnone : (∀ b ∈ l, ∀ i, P a i → ¬P b i) ↔ ∀ i, P a i → l.countP (P · i) = 0 := by
      simp only [List.countP_eq_zero, decide_eq_true_eq]
      exact ⟨fun h i ha b hb => h b hb i ha, fun h b hb i ha => h i ha b hb⟩
    rw [List.pairwise_cons, ih, hnone, ← forall_and]
    refine forall_congr' fun i => ?_
    rw [List.countP_cons]
    by_cases ha : P a i
    · simp only [ha, decide_true, if_true, forall_const]
      omega
    · simp [ha]

theorem countP_ranges (l : Layout) (i : Nat) :
    l.ranges.countP (fun r => r.2.2 ≤ i ∧ i ≤ r.2.1) = l.owners i := by
  rw [ranges, List.countP_append, List.countP_map, List.countP_map]
  rfl

/-- Ranges in a word lie apart and cover it exactly if each bit of the word belongs to one of
them. -/
theorem apart_covered_iff {l : Layout} {n : Nat} (hin : ∀ r ∈ l.ranges, r.2.2 ≤ r.2.1 ∧ r.2.1 < n) :
    ((l.ranges.Pairwise fun a b => ∀ i, InRange a i → ¬InRange b i) ∧
        ∀ i, i < n → ∃ r ∈ l.ranges, InRange r i) ↔ ∀ i, i < n → l.owners i = 1 := by
  have hapart : (l.ranges.Pairwise fun a b => ∀ i, InRange a i → ¬InRange b i) ↔
      ∀ i, l.owners i ≤ 1 := by
    simp only [← countP_ranges]
    exact pairwise_apart_iff (P := fun (r : Owner × Nat × Nat) i => r.2.2 ≤ i ∧ i ≤ r.2.1)
  have hcovered : ∀ i, (∃ r ∈ l.ranges, InRange r i) ↔ 0 < l.owners i := by
    intro i
    rw [← countP_ranges, List.countP_pos_iff]
    simp only [decide_eq_true_eq, InRange]
  -- beyond the word there are no ranges
  have hbeyond : ∀ i, n ≤ i → l.owners i = 0 := by
    intro i hi
    rw [← countP_ranges, List.countP_eq_zero]
    intro r hr
    have := (hin r hr).2
    simp only [decide_eq_true_eq]
    omega
  simp only [hapart, hcovered]
  constructor
  · rintro ⟨hle, hpos⟩ i hi
    exact Nat.le_antisymm (hle i) (hpos i hi)
  · intro h
    refine ⟨fun i => ?_, fun i hi => by rw [h i hi]; exact Nat.one_pos⟩
    rcases Nat.lt_or_ge i n with hi | hi
    · exact Nat.le_of_eq (h i hi)
    · rw [hbeyond i hi]
      exact Nat.zero_le 1

/-! ## The announced size -/

section
variable {l : Layout} (hin : ∀ f ∈ l.fixed, f.lo ≤ f.hi ∧ f.hi < 32)
  (hapart : l.ranges.Pairwise fun a b => ∀ i, InRange a i → ¬InRange b i)
include hin hapart

/-- The masks tell what a bit is fixed to. -/
theorem fixesTo_iff (i : Nat) (b : Bool) :
    l.FixesTo i b ↔ l.mask.testBit i = true ∧ l.matchBits.testBit i = b := by
  have hbit : ∀ f ∈ l.fixed, f.Has i → l.matchBits.testBit i = f.value.testBit (i - f.lo) := by
    intro f hf hi
    rw [Bool.eq_iff_iff, testBit_matchBits_iff hin]
    refine ⟨?_, fun hset => ⟨f, hf, hi, hset⟩⟩
    rintro ⟨g, hg, hgi, hset⟩
    rwa [fixed_eq_of_apart hapart hf hg hi hgi]
  rw [testBit_mask_iff hin]
  constructor
  · rintro ⟨f, hf, hi, rfl⟩
    exact ⟨⟨f, hf, hi⟩, hbit f hf hi⟩
  · rintro ⟨⟨f, hf, hi⟩, rfl⟩
    exact ⟨f, hf, hi, (hbit f hf hi).symm⟩

theorem announces_iff (size : WordSize) : l.announces size.bits = true ↔ l.FixesSize size := by
  have hmask : l.mask % 4 = 3 ↔ l.mask.testBit 0 = true ∧ l.mask.testBit 1 = true := by
    rw [Bits.mod_four_eq]
    cases l.mask.testBit 0 <;> cases l.mask.testBit 1 <;> decide
  have hbits : l.matchBits % 4 = 3 ↔
      l.matchBits.testBit 0 = true ∧ l.matchBits.testBit 1 = true := by
    rw [Bits.mod_four_eq]
    cases l.matchBits.testBit 0 <;> cases l.matchBits.testBit 1 <;> decide
  rw [announces, Bool.and_eq_true, decide_eq_true_iff, hmask]
  cases size with
  | full =>
    simp only [WordSize.bits, if_true, decide_eq_true_iff, hbits, FixesSize,
      fixesTo_iff hin hapart]
    exact and_and_and_comm
  | half =>
    simp only [WordSize.bits, Nat.reduceEqDiff, if_false, ne_eq, decide_eq_true_iff, hbits,
      FixesSize, fixesTo_iff hin hapart]
    constructor
    · rintro ⟨⟨h0, h1⟩, hne⟩
      exact ⟨_, _, ⟨h0, rfl⟩, ⟨h1, rfl⟩, hne⟩
    · rintro ⟨_, _, ⟨h0, rfl⟩, ⟨h1, rfl⟩, hne⟩
      exact ⟨⟨h0, h1⟩, hne⟩

end

/-- What the masks say of a layout is what it says bit by bit. -/
theorem valid_iff_divides {l : Layout} {size : WordSize} : l.Valid size.bits ↔ l.Divides size := by
  have hle := size.bits_le
  have hranges : (∀ r ∈ l.ranges, r.2.2 ≤ r.2.1 ∧ r.2.1 < size.bits) ↔
      (∀ f ∈ l.fixed, f.lo ≤ f.hi ∧ f.hi < size.bits) ∧
        ∀ s ∈ l.fields, s.lo ≤ s.hi ∧ s.hi < size.bits := by
    simp only [ranges, List.forall_mem_append, List.forall_mem_map]
  constructor
  · intro h
    obtain ⟨hfixed, hfields⟩ := hranges.mp h.within
    exact ⟨hfixed, hfields, (apart_covered_iff h.within).mp ⟨h.apart, h.covered⟩, h.fits,
      (announces_iff (fun f hf => (hfixed f hf).imp_right (Nat.lt_of_lt_of_le · hle))
        h.apart size).mp h.announced⟩
  · intro h
    have hwithin := hranges.mpr ⟨h.fixed_within, h.field_within⟩
    obtain ⟨hapart, hcovered⟩ := (apart_covered_iff hwithin).mpr h.once
    exact ⟨hwithin, hapart, hcovered, h.fits,
      (announces_iff (fun f hf => (h.fixed_within f hf).imp_right (Nat.lt_of_lt_of_le · hle))
        hapart size).mpr h.size_fixed⟩

/-! ## Numbers of bits -/

theorem sum_indicator {β : Type} (p : β → Bool) (is : List β) :
    (is.map fun i => if p i = true then 1 else 0).sum = is.countP p := by
  induction is with
  | nil => rfl
  | cons i is ih => rw [List.map_cons, List.sum_cons, ih, List.countP_cons, Nat.add_comm]

/-- Pairs of a bit and a range that it belongs to are counted bit by bit or range by range. -/
theorem sum_countP_comm {α β : Type} (p : α → β → Bool) (l : List α) (is : List β) :
    (is.map fun i => l.countP (p · i)).sum = (l.map fun a => is.countP (p a)).sum := by
  induction l with
  | nil => simp
  | cons a l ih =>
    simp only [List.countP_cons, List.sum_map_add, ih, sum_indicator, List.map_cons, List.sum_cons,
      Nat.add_comm]

theorem countP_between (lo hi n : Nat) :
    (List.range n).countP (fun i => lo ≤ i ∧ i ≤ hi) = min n (hi + 1) - lo := by
  induction n with
  | zero => simp
  | succ n ih =>
    rw [List.range_succ, List.countP_append, ih, List.countP_singleton]
    by_cases h : lo ≤ n ∧ n ≤ hi
    · simp only [h, and_self, decide_true, if_true]
      omega
    · simp only [h, decide_false, Bool.false_eq_true, if_false]
      omega

section
variable {l : Layout} {size : WordSize} (h : l.Divides size)
include h

/-- No bit outside the word is fixed. -/
theorem Divides.fixedCount_eq :
    l.fixedCount = (List.range size.bits).countP l.mask.testBit := by
  have hvalid := valid_iff_divides.mpr h
  obtain ⟨k, hk⟩ := Nat.exists_eq_add_of_le size.bits_le
  rw [fixedCount, hk, List.range_add, List.countP_append, Nat.add_eq_left, List.countP_eq_zero]
  intro i hi hbit
  obtain ⟨j, -, rfl⟩ := List.mem_map.mp hi
  obtain ⟨f, hf, hlo, hhi⟩ := (hvalid.testBit_mask size.bits_le _).mp hbit
  have := (h.fixed_within f hf).2
  omega

/-- The mask counts a bit of the word as often as the fixed ranges do. -/
theorem Divides.countP_fixed {i : Nat} (hi : i < size.bits) :
    l.fixed.countP (fun f => f.lo ≤ i ∧ i ≤ f.hi) = if l.mask.testBit i = true then 1 else 0 := by
  have hvalid := valid_iff_divides.mpr h
  have hone := h.once i hi
  rw [owners] at hone
  have hmask : l.mask.testBit i = true ↔ 0 < l.fixed.countP (fun f => f.lo ≤ i ∧ i ≤ f.hi) := by
    rw [hvalid.testBit_mask size.bits_le, List.countP_pos_iff]
    simp only [decide_eq_true_eq, FixedRange.Has]
  split
  · rename_i hbit
    have := hmask.mp hbit
    omega
  · rename_i hbit
    exact Nat.eq_zero_of_not_pos (mt hmask.mpr hbit)

/-- **The fixed bits and the bits of the segments add up to the word.** -/
theorem Divides.fixedCount_add :
    l.fixedCount + (l.fields.map Segment.length).sum = size.bits := by
  have hsegments :
      (l.fields.map fun s => (List.range size.bits).countP fun i => s.lo ≤ i ∧ i ≤ s.hi) =
        l.fields.map Segment.length := by
    refine List.map_congr_left fun s hs => ?_
    have hin := h.field_within s hs
    have hle := size.bits_le
    rw [countP_between, Segment.length_eq hin.1 (by omega)]
    omega
  calc l.fixedCount + (l.fields.map Segment.length).sum
      = ((List.range size.bits).map fun i => l.fixed.countP fun f => f.lo ≤ i ∧ i ≤ f.hi).sum +
          ((List.range size.bits).map fun i =>
            l.fields.countP fun s => s.lo ≤ i ∧ i ≤ s.hi).sum := by
        rw [sum_countP_comm (fun s i => decide (s.lo ≤ i ∧ i ≤ s.hi)) l.fields, hsegments,
          h.fixedCount_eq, ← sum_indicator]
        congr 2
        exact List.map_congr_left fun i hi => (h.countP_fixed (List.mem_range.mp hi)).symm
    _ = ((List.range size.bits).map l.owners).sum := List.sum_map_add.symm
    _ = ((List.range size.bits).map fun _ => 1).sum := by
        congr 1
        exact List.map_congr_left fun i hi => h.once i (List.mem_range.mp hi)
    _ = size.bits := by simp

end

/-- **The check of a layout is exact, and the masks of a layout that passes are what they stand
for.** A layout passes exactly if it divides the word; then the mask has the fixed bits, the match
value has those of them that are fixed to one, and the bits that are not fixed are those of the
segments. -/
theorem check_exact (l : Layout) (size : WordSize) :
    (l.check size.bits = .ok () ↔ l.Divides size) ∧
    (l.check size.bits = .ok () →
      (∀ i, l.mask.testBit i = true ↔ ∃ f ∈ l.fixed, f.Has i) ∧
      (∀ i, l.matchBits.testBit i = true ↔ l.FixesTo i true) ∧
      BitVec.ofNat 32 l.matchBits &&& ~~~BitVec.ofNat 32 l.mask = 0 ∧
      l.fixedCount ≤ size.bits ∧
      size.bits - l.fixedCount = (l.fields.map Segment.length).sum) := by
  have hiff := check_eq_ok_iff (l := l) size.bits_le
  refine ⟨hiff.trans valid_iff_divides, fun hok => ?_⟩
  have hvalid := hiff.mp hok
  have hmask := hvalid.testBit_mask size.bits_le
  have hmatch := hvalid.testBit_matchBits size.bits_le
  have hcount := (valid_iff_divides.mp hvalid).fixedCount_add
  refine ⟨hmask, hmatch, ?_, by omega, by omega⟩
  apply BitVec.eq_of_getLsbD_eq
  intro i hi
  have hkept : l.matchBits.testBit i = true → l.mask.testBit i = true := by
    intro hbit
    obtain ⟨f, hf, hfi, -⟩ := (hmatch i).mp hbit
    exact (hmask i).mpr ⟨f, hf, hfi⟩
  rw [BitVec.getLsbD_and, BitVec.getLsbD_not, BitVec.getLsbD_ofNat, BitVec.getLsbD_ofNat]
  cases hbit : l.matchBits.testBit i with
  | false => simp
  | true => simp [hkept hbit, hi]

/-- The register form passes the check: all its bits but the fifteen of its operands are fixed. -/
theorem check_exact_registerForm :
    (registerForm 0x2b 3 0x28).check 32 = .ok () ∧ (registerForm 0x2b 3 0x28).Divides .full ∧
      32 - (registerForm 0x2b 3 0x28).fixedCount = 15 := by
  have hok : (registerForm 0x2b 3 0x28).check WordSize.full.bits = .ok () := by decide
  obtain ⟨hiff, hmasks⟩ := check_exact (registerForm 0x2b 3 0x28) .full
  exact ⟨hok, hiff.mp hok, (hmasks hok).2.2.2.2⟩

end Layout
end CustomIsa
