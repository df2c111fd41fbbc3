import Mathlib.Data.List.Pairwise
import CustomIsa.Layout
import CustomIsa.Proofs.Bits
/-! # What a checked layout guarantees

`Layout.Valid` says in terms of single bits what `Layout.check` tests with masks: the ranges lie in
the word, no bit belongs to two of them, every bit belongs to one, fixed values fit, and the low
bits announce the size (`Layout.check_eq_ok_iff`). On a valid layout the mask has exactly the bits
of the fixed ranges, and the match value has in each of them the bits of its value. -/
namespace CustomIsa

/-- Bit `i` belongs to the range. -/
def FixedRange.Has (f : FixedRange) (i : Nat) : Prop := f.lo ≤ i ∧ i ≤ f.hi

/-- Bit `i` of the word belongs to the segment. -/
def Segment.Has (s : Segment) (i : Nat) : Prop := s.lo ≤ i ∧ i ≤ s.hi

namespace Layout

/-- Bit `i` belongs to a range with an owner. -/
def InRange (r : Owner × Nat × Nat) (i : Nat) : Prop := r.2.2 ≤ i ∧ i ≤ r.2.1

/-- The ranges of the layout divide a word of the given size, and the fixed values fit and announce
that size. -/
structure Valid (l : Layout) (wordBits : Nat) : Prop where
  within : ∀ r ∈ l.ranges, r.2.2 ≤ r.2.1 ∧ r.2.1 < wordBits
  apart : l.ranges.Pairwise fun a b => ∀ i, InRange a i → ¬InRange b i
  covered : ∀ i, i < wordBits → ∃ r ∈ l.ranges, InRange r i
  fits : ∀ f ∈ l.fixed, f.value < 2 ^ (f.hi - f.lo + 1)
  announced : l.announces wordBits = true

/-! ## The check -/

theorem occupy_eq_ok_iff {wordBits taken after : Nat} {r : Owner × Nat × Nat}
    (hword : wordBits ≤ 32) :
    occupy wordBits taken r = .ok after ↔
      (r.2.2 ≤ r.2.1 ∧ r.2.1 < wordBits) ∧ (∀ i, taken.testBit i = true → ¬InRange r i) ∧
        after = taken ||| Bits.rangeMask r.2.1 r.2.2 := by
  obtain ⟨owner, hi, lo⟩ := r
  simp only [occupy, InRange]
  by_cases hle : hi < lo
  · rw [if_pos hle]
    simp only [reduceCtorEq, false_iff]
    rintro ⟨⟨h, -⟩, -⟩
    omega
  by_cases hhi : wordBits ≤ hi
  · rw [if_neg hle, if_pos hhi]
    simp only [reduceCtorEq, false_iff]
    rintro ⟨⟨-, h⟩, -⟩
    omega
  have hmask : taken &&& Bits.rangeMask hi lo = 0 ↔
      ∀ i, taken.testBit i = true → ¬(lo ≤ i ∧ i ≤ hi) := by
    rw [Bits.and_eq_zero_iff]
    simp only [Bits.testBit_rangeMask (Nat.le_of_not_lt hle) (by omega : hi < 32),
      decide_eq_false_iff_not]
  rw [if_neg hle, if_neg hhi]
  by_cases hfree : taken &&& Bits.rangeMask hi lo = 0
  · rw [if_neg (by simpa using hfree), Except.ok.injEq]
    constructor
    · rintro rfl
      exact ⟨⟨by omega, by omega⟩, hmask.mp hfree, rfl⟩
    · rintro ⟨-, -, rfl⟩
      rfl
  · rw [if_pos hfree]
    simp only [reduceCtorEq, false_iff]
    rintro ⟨-, h, -⟩
    exact hfree (hmask.mpr h)

/-- Taking ranges one after another succeeds exactly when they lie in the word, apart from each
other and from the bits already taken; the bits taken afterwards are those before and those of the
ranges. -/
theorem occupyAll_eq_ok_iff {wordBits taken after : Nat} {rs : List (Owner × Nat × Nat)}
    (hword : wordBits ≤ 32) :
    occupyAll wordBits taken rs = .ok after ↔
      (∀ r ∈ rs, r.2.2 ≤ r.2.1 ∧ r.2.1 < wordBits) ∧
      (rs.Pairwise fun a b => ∀ i, InRange a i → ¬InRange b i) ∧
      (∀ r ∈ rs, ∀ i, taken.testBit i = true → ¬InRange r i) ∧
      after = rs.foldl (fun acc r => acc ||| Bits.rangeMask r.2.1 r.2.2) taken := by
  induction rs generalizing taken with
  | nil =>
    simp only [occupyAll, Except.ok.injEq, List.not_mem_nil, false_imp_iff, implies_true,
      List.Pairwise.nil, true_and, List.foldl_nil]
    exact eq_comm
  | cons r rs ih =>
    rw [occupyAll]
    cases hocc : occupy wordBits taken r with
    | error e =>
      simp only [reduceCtorEq, false_iff]
      rintro ⟨hin, -, hfree, -⟩
      have hok : occupy wordBits taken r = .ok (taken ||| Bits.rangeMask r.2.1 r.2.2) :=
        (occupy_eq_ok_iff hword).mpr ⟨hin r List.mem_cons_self, hfree r List.mem_cons_self, rfl⟩
      rw [hocc] at hok
      cases hok
    | ok next =>
      obtain ⟨hr, hfree, rfl⟩ := (occupy_eq_ok_iff hword).mp hocc
      have hnext : ∀ i, (taken ||| Bits.rangeMask r.2.1 r.2.2).testBit i = true ↔
          taken.testBit i = true ∨ InRange r i := by
        intro i
        rw [Nat.testBit_or, Bool.or_eq_true, Bits.testBit_rangeMask hr.1 (by omega),
          decide_eq_true_iff, InRange]
      simp only [ih, hnext, List.forall_mem_cons, List.pairwise_cons, List.foldl_cons]
      constructor
      · rintro ⟨hin, hap, hout, hafter⟩
        exact ⟨⟨hr, hin⟩, ⟨fun b hb i hi => hout b hb i (.inr hi), hap⟩,
          ⟨hfree, fun b hb i hi => hout b hb i (.inl hi)⟩, hafter⟩
      · rintro ⟨⟨-, hin⟩, ⟨hhead, hap⟩, ⟨-, hout⟩, hafter⟩
        exact ⟨hin, hap, fun b hb i hi => hi.elim (hout b hb i) (hhead b hb i), hafter⟩

theorem tooWide_eq_none_iff {l : Layout} (hlen : ∀ f ∈ l.fixed, f.hi - f.lo < 32) :
    l.tooWide? = none ↔ ∀ f ∈ l.fixed, f.value < 2 ^ (f.hi - f.lo + 1) := by
  rw [tooWide?, List.find?_eq_none]
  refine forall_congr' fun f => forall_congr' fun hf => ?_
  have hmin : min (f.hi - f.lo + 1) 64 = f.hi - f.lo + 1 := by
    have := hlen f hf
    omega
  have hpos : 0 < 2 ^ (f.hi - f.lo + 1) := Nat.two_pow_pos _
  rw [Bits.lowMask, hmin, decide_eq_true_iff]
  omega

theorem mem_ranges_fixed {l : Layout} {f : FixedRange} (hf : f ∈ l.fixed) :
    (.fixed, f.hi, f.lo) ∈ l.ranges :=
  List.mem_append_left _ (List.mem_map.mpr ⟨f, hf, rfl⟩)

theorem mem_ranges_field {l : Layout} {s : Segment} (hs : s ∈ l.fields) :
    (.field s.operand, s.hi, s.lo) ∈ l.ranges :=
  List.mem_append_right _ (List.mem_map.mpr ⟨s, hs, rfl⟩)

/-- The bits taken by ranges are all bits of the word exactly when each of them is in a range. -/
theorem union_eq_lowMask_iff {wordBits : Nat} {rs : List (Owner × Nat × Nat)}
    (hword : wordBits ≤ 32) (hin : ∀ r ∈ rs, r.2.2 ≤ r.2.1 ∧ r.2.1 < wordBits) :
    rs.foldl (fun acc r => acc ||| Bits.rangeMask r.2.1 r.2.2) 0 = Bits.lowMask wordBits ↔
      ∀ i, i < wordBits → ∃ r ∈ rs, InRange r i := by
  have hunion : ∀ i,
      (rs.foldl (fun acc r => acc ||| Bits.rangeMask r.2.1 r.2.2) 0).testBit i = true ↔
        ∃ r ∈ rs, InRange r i := by
    intro i
    rw [Bits.testBit_foldl_or, Nat.zero_testBit]
    simp only [Bool.false_eq_true, false_or]
    refine exists_congr fun r => and_congr_right fun hr => ?_
    have hlt := (hin r hr).2
    rw [Bits.testBit_rangeMask (hin r hr).1 (by omega), decide_eq_true_iff, InRange]
  have hlow : ∀ i, (Bits.lowMask wordBits).testBit i = true ↔ i < wordBits := by
    intro i
    rw [Bits.testBit_lowMask, decide_eq_true_iff]
    omega
  constructor
  · intro h i hi
    exact (hunion i).mp (h ▸ (hlow i).mpr hi)
  · intro h
    apply Nat.eq_of_testBit_eq
    intro i
    rw [Bool.eq_iff_iff, hunion, hlow]
    refine ⟨fun ⟨r, hr, hi⟩ => ?_, h i⟩
    have := (hin r hr).2
    exact Nat.lt_of_le_of_lt hi.2 this

/-- **The check of a layout is exact**: it accepts the layouts that are valid for the word. -/
theorem check_eq_ok_iff {l : Layout} {wordBits : Nat} (hword : wordBits ≤ 32) :
    l.check wordBits = .ok () ↔ l.Valid wordBits := by
  rw [check]
  cases hocc : occupyAll wordBits 0 l.ranges with
  | error e =>
    simp only [reduceCtorEq, false_iff]
    intro h
    have hok : occupyAll wordBits 0 l.ranges = .ok _ :=
      (occupyAll_eq_ok_iff hword).mpr ⟨h.within, h.apart, by simp, rfl⟩
    rw [hocc] at hok
    cases hok
  | ok taken =>
    obtain ⟨hin, hap, -, rfl⟩ := (occupyAll_eq_ok_iff hword).mp hocc
    have hlen : ∀ f ∈ l.fixed, f.hi - f.lo < 32 := by
      intro f hf
      have := (hin _ (mem_ranges_fixed hf)).2
      simp only at this
      omega
    simp only
    cases hwide : l.tooWide? with
    | some f =>
      simp only [reduceCtorEq, false_iff]
      intro h
      rw [(tooWide_eq_none_iff hlen).mpr h.fits] at hwide
      cases hwide
    | none =>
      have hfits := (tooWide_eq_none_iff hlen).mp hwide
      simp only [ne_eq, ite_not]
      split
      · rename_i hall
        have hcov := (union_eq_lowMask_iff hword hin).mp hall
        split
        · rename_i hann
          exact ⟨fun _ => ⟨hin, hap, hcov, hfits, hann⟩, fun _ => rfl⟩
        · rename_i hann
          simp only [reduceCtorEq, false_iff]
          exact fun h => hann h.announced
      · rename_i hall
        simp only [reduceCtorEq, false_iff]
        exact fun h => hall ((union_eq_lowMask_iff hword hin).mpr h.covered)

/-! ## Bits of a valid layout -/

/-- Members of a list of ranges that lie apart are equal if they share a bit. -/
theorem eq_of_apart {α : Type} {P : α → Nat → Prop} {l : List α}
    (h : l.Pairwise fun a b => ∀ i, P a i → ¬P b i) {a b : α} {i : Nat} (ha : a ∈ l) (hb : b ∈ l)
    (hai : P a i) (hbi : P b i) : a = b := by
  have hsymm : Std.Symm fun a b => ∀ i, P a i → ¬P b i := ⟨fun _ _ hab i hb ha => hab i ha hb⟩
  exact Classical.byContradiction fun hne => h.forall ha hb hne i hai hbi

section
variable {l : Layout}

theorem fixed_eq_of_apart (h : l.ranges.Pairwise fun a b => ∀ i, InRange a i → ¬InRange b i)
    {f g : FixedRange} {i : Nat} (hf : f ∈ l.fixed) (hg : g ∈ l.fixed) (hfi : f.Has i)
    (hgi : g.Has i) : f = g := by
  have hap := (List.pairwise_append.mp h).1
  exact eq_of_apart (P := FixedRange.Has) (List.pairwise_map.mp hap) hf hg hfi hgi

variable (hin : ∀ f ∈ l.fixed, f.lo ≤ f.hi ∧ f.hi < 32)
include hin

theorem testBit_mask_iff (i : Nat) : l.mask.testBit i = true ↔ ∃ f ∈ l.fixed, f.Has i := by
  rw [mask, Bits.testBit_foldl_or, Nat.zero_testBit]
  simp only [Bool.false_eq_true, false_or]
  refine exists_congr fun f => and_congr_right fun hf => ?_
  rw [Bits.testBit_rangeMask (hin f hf).1 (hin f hf).2, decide_eq_true_iff, FixedRange.Has]

theorem testBit_matchBits_iff (i : Nat) : l.matchBits.testBit i = true ↔
    ∃ f ∈ l.fixed, f.Has i ∧ f.value.testBit (i - f.lo) = true := by
  rw [matchBits, Bits.testBit_foldl_or, Nat.zero_testBit]
  simp only [Bool.false_eq_true, false_or]
  refine exists_congr fun f => and_congr_right fun hf => ?_
  have hrange := hin f hf
  have hlen : f.length = f.hi - f.lo + 1 := by
    rw [FixedRange.length, Nat.mod_eq_of_lt (by omega)]
  rw [Nat.testBit_mod_two_pow, Nat.testBit_shiftLeft, Nat.testBit_and, Bits.testBit_lowMask, hlen,
    Nat.min_eq_left (by omega : f.lo ≤ 31)]
  simp only [FixedRange.Has, Bool.and_eq_true, decide_eq_true_iff]
  constructor
  · rintro ⟨-, hlo, hbit, hlt⟩
    exact ⟨⟨hlo, by omega⟩, hbit⟩
  · rintro ⟨⟨hlo, hhi⟩, hbit⟩
    exact ⟨by omega, hlo, hbit, by omega⟩

end

namespace Valid
variable {l : Layout} {wordBits : Nat}

theorem fixed_within (h : l.Valid wordBits) {f : FixedRange} (hf : f ∈ l.fixed) :
    f.lo ≤ f.hi ∧ f.hi < wordBits :=
  h.within _ (mem_ranges_fixed hf)

theorem field_within (h : l.Valid wordBits) {s : Segment} (hs : s ∈ l.fields) :
    s.lo ≤ s.hi ∧ s.hi < wordBits :=
  h.within _ (mem_ranges_field hs)

/-- A bit belongs to one fixed range at most. -/
theorem fixed_unique (h : l.Valid wordBits) {f g : FixedRange} {i : Nat} (hf : f ∈ l.fixed)
    (hg : g ∈ l.fixed) (hfi : f.Has i) (hgi : g.Has i) : f = g :=
  fixed_eq_of_apart h.apart hf hg hfi hgi

/-- A bit belongs to one segment at most. -/
theorem field_unique (h : l.Valid wordBits) {s t : Segment} {i : Nat} (hs : s ∈ l.fields)
    (ht : t ∈ l.fields) (hsi : s.Has i) (hti : t.Has i) : s = t := by
  have hap := (List.pairwise_append.mp h.apart).2.1
  exact eq_of_apart (P := Segment.Has) (List.pairwise_map.mp hap) hs ht hsi hti

/-- No bit is both fixed and part of a segment. -/
theorem fixed_field (h : l.Valid wordBits) {f : FixedRange} {s : Segment} {i : Nat}
    (hf : f ∈ l.fixed) (hs : s ∈ l.fields) (hfi : f.Has i) : ¬s.Has i :=
  (List.pairwise_append.mp h.apart).2.2 _ (List.mem_map.mpr ⟨f, hf, rfl⟩) _
    (List.mem_map.mpr ⟨s, hs, rfl⟩) i hfi

/-- The mask has exactly the fixed bits. -/
theorem testBit_mask (h : l.Valid wordBits) (hword : wordBits ≤ 32) (i : Nat) :
    l.mask.testBit i = true ↔ ∃ f ∈ l.fixed, f.Has i :=
  testBit_mask_iff (fun _ hf => (h.fixed_within hf).imp_right (Nat.lt_of_lt_of_le · hword)) i

/-- The match value has, in each fixed range, the bits of the range's value. -/
theorem testBit_matchBits (h : l.Valid wordBits) (hword : wordBits ≤ 32) (i : Nat) :
    l.matchBits.testBit i = true ↔ ∃ f ∈ l.fixed, f.Has i ∧ f.value.testBit (i - f.lo) = true :=
  testBit_matchBits_iff (fun _ hf => (h.fixed_within hf).imp_right (Nat.lt_of_lt_of_le · hword)) i

/-- A word matches exactly when each fixed range of it holds the bits of the range's value. -/
theorem and_mask_eq_iff (h : l.Valid wordBits) (hword : wordBits ≤ 32) (bits : Nat) :
    bits &&& l.mask = l.matchBits ↔
      ∀ f ∈ l.fixed, ∀ i, f.Has i → bits.testBit i = f.value.testBit (i - f.lo) := by
  have hmatch : ∀ f ∈ l.fixed, ∀ i, f.Has i →
      l.matchBits.testBit i = f.value.testBit (i - f.lo) := by
    intro f hf i hi
    rw [Bool.eq_iff_iff, h.testBit_matchBits hword]
    refine ⟨?_, fun hbit => ⟨f, hf, hi, hbit⟩⟩
    rintro ⟨g, hg, hgi, hbit⟩
    rwa [h.fixed_unique hf hg hi hgi]
  constructor
  · intro heq f hf i hi
    have hmask : l.mask.testBit i = true := (h.testBit_mask hword i).mpr ⟨f, hf, hi⟩
    rw [← hmatch f hf i hi, ← heq, Nat.testBit_and, hmask, Bool.and_true]
  · intro hall
    apply Nat.eq_of_testBit_eq
    intro i
    rw [Nat.testBit_and]
    cases hmask : l.mask.testBit i with
    | true =>
      obtain ⟨f, hf, hi⟩ := (h.testBit_mask hword i).mp hmask
      rw [Bool.and_true, hall f hf i hi, hmatch f hf i hi]
    | false =>
      rw [Bool.and_false, eq_comm, Bool.eq_false_iff]
      intro hbit
      obtain ⟨f, hf, hi, -⟩ := (h.testBit_matchBits hword i).mp hbit
      rw [(h.testBit_mask hword i).mpr ⟨f, hf, hi⟩] at hmask
      cases hmask

end Valid

end Layout
end CustomIsa
