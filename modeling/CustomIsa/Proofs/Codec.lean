import CustomIsa.Codec
import CustomIsa.Proofs.Definition
import CustomIsa.Proofs.Foundations
/-! # Packing and unpacking operand values

For a valid definition, a word packed from operand values has in each segment the bits of its
operand's pattern and in each fixed range the fixed value. So it matches its own definition, and
unpacking gives back every operand value, with none lost or added (`extract_of_encode`). -/
namespace CustomIsa
namespace Segment

/-- A segment of a word of at most 32 bits has as many bits as its range. -/
theorem length_eq {s : Segment} (hle : s.lo ≤ s.hi) (hhi : s.hi < 32) :
    s.length = s.hi - s.lo + 1 := by
  rw [length, show s.hi + 2 ^ 32 - s.lo + 1 = (s.hi - s.lo + 1) + 2 ^ 32 by omega,
    Nat.add_mod_right, Nat.mod_eq_of_lt (by omega)]

/-- Bit `j` of the operand's value is carried by the segment. -/
def Carries (s : Segment) (j : Nat) : Prop := s.offset ≤ j ∧ j < s.offset + s.length

theorem testBit_valueMask {s : Segment} (h : s.offset + s.length ≤ 64) (hpos : 0 < s.length)
    (j : Nat) : s.valueMask.testBit j = true ↔ s.Carries j := by
  have hshift : s.shift = s.offset := Nat.mod_eq_of_lt (by omega)
  rw [valueMask, hshift, Nat.testBit_mod_two_pow, Nat.testBit_shiftLeft, Bits.testBit_lowMask]
  simp only [Carries, Bool.and_eq_true, decide_eq_true_iff]
  omega

end Segment

namespace Codec

/-! ## Single segments -/

/-- A placed segment has at bit `i` of the word the bit of the pattern that it carries there. -/
theorem testBit_place {s : Segment} (hle : s.lo ≤ s.hi) (hhi : s.hi < 32) (hoff : s.offset < 64)
    (pattern i : Nat) :
    (place pattern s).testBit i = true ↔
      s.Has i ∧ pattern.testBit (s.offset + (i - s.lo)) = true := by
  have hshift : s.shift = s.offset := Nat.mod_eq_of_lt hoff
  rw [place, if_pos (by omega), Nat.testBit_shiftLeft, Nat.testBit_and, Nat.testBit_shiftRight,
    Bits.testBit_lowMask, hshift, Segment.length_eq hle hhi]
  simp only [Segment.Has, Bool.and_eq_true, decide_eq_true_iff]
  constructor
  · rintro ⟨hlo, hbit, hlt⟩
    exact ⟨⟨hlo, by omega⟩, hbit⟩
  · rintro ⟨⟨hlo, hi⟩, hbit⟩
    exact ⟨hlo, hbit, by omega⟩

/-- A picked segment has at bit `j` of the pattern the bit of the word that carries it. -/
theorem testBit_pick {s : Segment} (hlen : s.length ≤ 64) (bits j : Nat) :
    (pick bits s).testBit j = true ↔
      s.Carries j ∧ bits.testBit (s.lo + (j - s.offset)) = true := by
  rw [pick, Nat.testBit_shiftLeft, Nat.testBit_and, Nat.testBit_shiftRight, Bits.testBit_lowMask]
  simp only [Segment.Carries, Bool.and_eq_true, decide_eq_true_iff]
  constructor
  · rintro ⟨hoff, hbit, hlt⟩
    exact ⟨⟨hoff, by omega⟩, hbit⟩
  · rintro ⟨⟨hoff, hlt⟩, hbit⟩
    exact ⟨hoff, hbit, by omega⟩

/-! ## Values and patterns -/

/-- Reading the pattern of a value that is in range gives back the value. -/
theorem valueOf_pattern {op : Operand} {value : Int} {pattern : Nat}
    (hwidth : 1 ≤ op.width ∧ op.width ≤ 64) (h : pattern? op value = some pattern) :
    valueOf op pattern = value := by
  rw [pattern?] at h
  rw [valueOf]
  cases hkind : op.kind with
  | register =>
    rw [hkind] at h
    simp only at h ⊢
    split at h
    · rename_i hrange
      obtain rfl := Option.some.inj h
      omega
    · cases h
  | immediate =>
    rw [hkind] at h
    simp only at h ⊢
    split at h
    swap
    · cases h
    rename_i hrange
    obtain rfl := Option.some.inj h
    rw [Operand.inRange, Bool.and_eq_true, decide_eq_true_iff, decide_eq_true_iff] at hrange
    rw [Nat.min_eq_left hwidth.2]
    -- the range of a 64-bit immediate is that of 63 bits, so one bound serves all widths
    have hpow : (2 : Int) ^ (op.rangeWidth - 1) ≤ 2 ^ (op.width - 1) :=
      Bits.two_pow_le (by rw [Operand.rangeWidth]; omega)
    cases hsigned : op.signed with
    | true =>
      simp only [Operand.immediateRange, hsigned, if_true] at hrange ⊢
      exact Bits.signExtend_emod (by omega) (by omega) hwidth.1 hwidth.2
    | false =>
      simp only [Operand.immediateRange, hsigned, Bool.false_eq_true, if_false] at hrange ⊢
      have hwide : (2 : Int) ^ op.rangeWidth ≤ 2 ^ op.width :=
        Bits.two_pow_le (by rw [Operand.rangeWidth]; omega)
      have h63 : (2 : Int) ^ op.rangeWidth ≤ 2 ^ 63 :=
        Bits.two_pow_le (by rw [Operand.rangeWidth]; omega)
      rw [Int.emod_eq_of_lt hrange.1 (by omega)]
      have h64 : Bits.signExtend (value % 2 ^ 64).toNat 64 = value :=
        Bits.signExtend_emod (by omega) (by omega) (by decide) (by decide)
      rwa [Int.emod_eq_of_lt hrange.1 (by omega)] at h64

/-! ## Packing -/

/-- The operand is bound to `value`, which stands as `pattern` in its segments. -/
structure Packs (d : Definition) (bindings : Bindings) (op : Operand) (value : Int)
    (pattern : Nat) : Prop where
  bound : bindings.get? op.name = some value
  stands : pattern? op value = some pattern
  covered : pattern &&& (d.layout.coverage op.name).2 = pattern

variable {d : Definition} {bindings : Bindings}

theorem Packs.unique {op : Operand} {value value' : Int} {pattern pattern' : Nat}
    (h : Packs d bindings op value pattern) (h' : Packs d bindings op value' pattern') :
    value = value' ∧ pattern = pattern' := by
  obtain rfl := Option.some.inj (h.bound.symm.trans h'.bound)
  exact ⟨rfl, Option.some.inj (h.stands.symm.trans h'.stands)⟩

/-- Packing succeeds only if every operand is bound to a value that its segments hold, and then adds
exactly the placed segments. -/
theorem encodeOperands_eq_ok {bits packed : Nat} {ops : List Operand}
    (h : encodeOperands d bindings bits ops = .ok packed) :
    (∀ op ∈ ops, ∃ value pattern, Packs d bindings op value pattern) ∧
    ∀ i, packed.testBit i = true ↔ bits.testBit i = true ∨
      ∃ op ∈ ops, ∃ value pattern, Packs d bindings op value pattern ∧
        ∃ s ∈ d.layout.segments op.name, (place pattern s).testBit i = true := by
  induction ops generalizing bits with
  | nil =>
    obtain rfl := Except.ok.inj h
    simp
  | cons op ops ih =>
    rw [encodeOperands] at h
    split at h
    · cases h
    rename_i value hbound
    split at h
    · cases h
    rename_i pattern hpattern
    split at h
    · cases h
    rename_i hcovered
    have hpacks : Packs d bindings op value pattern :=
      ⟨hbound, hpattern, Classical.byContradiction hcovered⟩
    obtain ⟨hall, hbits⟩ := ih h
    refine ⟨fun o ho => ?_, fun i => ?_⟩
    · rcases List.mem_cons.mp ho with rfl | ho
      · exact ⟨value, pattern, hpacks⟩
      · exact hall o ho
    · rw [hbits, Bits.testBit_foldl_or]
      constructor
      · rintro ((hi | ⟨s, hs, hi⟩) | ⟨o, ho, hrest⟩)
        · exact .inl hi
        · exact .inr ⟨op, List.mem_cons_self, value, pattern, hpacks, s, hs, hi⟩
        · exact .inr ⟨o, List.mem_cons_of_mem _ ho, hrest⟩
      · rintro (hi | ⟨o, ho, v, p, hp, s, hs, hi⟩)
        · exact .inl (.inl hi)
        · rcases List.mem_cons.mp ho with rfl | ho
          · obtain ⟨rfl, rfl⟩ := hpacks.unique hp
            exact .inl (.inr ⟨s, hs, hi⟩)
          · exact .inr ⟨o, ho, v, p, hp, s, hs, hi⟩

theorem encode_eq_ok {w : Word} (h : encode d bindings = .ok w) :
    (∀ name ∈ bindings.names, ∃ op ∈ d.operands, op.name = name) ∧
      ∃ packed, encodeOperands d bindings d.layout.matchBits d.operands = .ok packed ∧
        w = Word.ofBits d.wordSize packed := by
  rw [encode] at h
  split at h
  · cases h
  rename_i hknown
  refine ⟨fun name hname => ?_, ?_⟩
  · have hsome := List.find?_eq_none.mp hknown name hname
    rw [Bool.not_eq_true, Option.isNone_eq_false_iff, Option.isSome_iff_exists] at hsome
    obtain ⟨op, hop⟩ := hsome
    exact ⟨op, Definition.mem_of_operand hop⟩
  · obtain ⟨packed, hpacked, hw⟩ := map_eq_ok h
    exact ⟨packed, hpacked, hw.symm⟩

/-! ## Words of a valid definition -/

theorem mem_segments {name : String} {s : Segment} :
    s ∈ d.layout.segments name ↔ s ∈ d.layout.fields ∧ s.operand = name := by
  rw [Layout.segments, List.mem_filter, decide_eq_true_iff]

/-- The segments of an operand carry bits of a 64-bit value. -/
theorem segment_le (hd : d.Valid) {op : Operand} (hop : op ∈ d.operands) {s : Segment}
    (hs : s ∈ d.layout.segments op.name) : s.offset + s.length ≤ 64 := by
  have hcarried := hd.carried op hop
  rw [Operand.CarriedBy] at hcarried
  cases hkind : op.kind with
  | immediate =>
    rw [hkind] at hcarried
    exact Nat.le_trans (hcarried.1 s hs) (hd.width op hop).2
  | register =>
    rw [hkind] at hcarried
    obtain ⟨t, ht, hoff, hlen, -⟩ := hcarried
    rw [ht, List.mem_singleton] at hs
    subst hs
    omega

theorem segment_length (hd : d.Valid) {s : Segment} (hs : s ∈ d.layout.fields) :
    s.length = s.hi - s.lo + 1 := by
  have hin := hd.layout.field_within hs
  exact Segment.length_eq hin.1 (Nat.lt_of_lt_of_le hin.2 d.wordSize.bits_le)

/-- The bits of an operand's value that its segments carry. -/
theorem testBit_coverage (hd : d.Valid) {op : Operand} (hop : op ∈ d.operands) (j : Nat) :
    (d.layout.coverage op.name).2.testBit j = true ↔
      ∃ s ∈ d.layout.segments op.name, s.Carries j := by
  have hfold : ∀ {f : Nat × Nat → Segment → Nat × Nat},
      (∀ acc s, (f acc s).2 = acc.2 ||| s.valueMask) → ∀ (ss : List Segment) (acc : Nat × Nat),
        (ss.foldl f acc).2 = ss.foldl (fun mask s => mask ||| s.valueMask) acc.2 := by
    intro f hf ss
    induction ss with
    | nil => exact fun _ => rfl
    | cons s ss ih =>
      intro acc
      rw [List.foldl_cons, List.foldl_cons, ih, hf]
  rw [Layout.coverage, hfold (fun _ _ => rfl), Bits.testBit_foldl_or, Nat.zero_testBit]
  simp only [Bool.false_eq_true, false_or]
  refine exists_congr fun s => and_congr_right fun hs => ?_
  have hlen := segment_length hd (mem_segments.mp hs).1
  exact Segment.testBit_valueMask (segment_le hd hop hs) (by omega) j

section Encoded
variable {w : Word} (hd : d.Valid) (h : encode d bindings = .ok w)
include hd h

omit hd in
theorem size_of_encode : w.size = d.wordSize := by
  obtain ⟨-, packed, -, rfl⟩ := encode_eq_ok h
  rfl

omit hd in
/-- Every operand is bound to a value that its segments hold. -/
theorem packs_of_encode {op : Operand} (hop : op ∈ d.operands) :
    ∃ value pattern, Packs d bindings op value pattern := by
  obtain ⟨-, packed, hpacked, -⟩ := encode_eq_ok h
  exact (encodeOperands_eq_ok hpacked).1 op hop

/-- A bit of the word is set by a fixed range or by a segment that carries a set bit. -/
theorem testBit_encode {i : Nat} (hi : i < d.wordSize.bits) :
    w.bits.testBit i = true ↔
      (∃ f ∈ d.layout.fixed, f.Has i ∧ f.value.testBit (i - f.lo) = true) ∨
      ∃ op ∈ d.operands, ∃ value pattern, Packs d bindings op value pattern ∧
        ∃ s ∈ d.layout.segments op.name, s.Has i ∧
          pattern.testBit (s.offset + (i - s.lo)) = true := by
  obtain ⟨-, packed, hpacked, rfl⟩ := encode_eq_ok h
  rw [Word.ofBits, Nat.testBit_mod_two_pow, Bool.and_eq_true, decide_eq_true_iff,
    (encodeOperands_eq_ok hpacked).2, hd.layout.testBit_matchBits d.wordSize.bits_le,
    and_iff_right hi]
  refine or_congr_right (exists_congr fun op => and_congr_right fun hop => ?_)
  refine exists_congr fun value => exists_congr fun pattern => and_congr_right fun _ => ?_
  refine exists_congr fun s => and_congr_right fun hs => ?_
  have hin := hd.layout.field_within (mem_segments.mp hs).1
  have hlen := segment_length hd (mem_segments.mp hs).1
  have hle := segment_le hd hop hs
  exact testBit_place hin.1 (Nat.lt_of_lt_of_le hin.2 d.wordSize.bits_le) (by omega) pattern i

/-- A fixed range of the word holds its value. -/
theorem testBit_encode_fixed {f : FixedRange} (hf : f ∈ d.layout.fixed) {i : Nat} (hfi : f.Has i) :
    w.bits.testBit i = f.value.testBit (i - f.lo) := by
  have hi : i < d.wordSize.bits := Nat.lt_of_le_of_lt hfi.2 (hd.layout.fixed_within hf).2
  rw [Bool.eq_iff_iff, testBit_encode hd h hi]
  constructor
  · rintro (⟨g, hg, hgi, hbit⟩ | ⟨op, -, -, -, -, s, hs, hsi, -⟩)
    · rwa [hd.layout.fixed_unique hf hg hfi hgi]
    · exact absurd hsi (hd.layout.fixed_field hf (mem_segments.mp hs).1 hfi)
  · exact fun hbit => .inl ⟨f, hf, hfi, hbit⟩

/-- A segment of the word holds the bits of its operand's pattern. -/
theorem testBit_encode_segment {op : Operand} (hop : op ∈ d.operands) {value : Int} {pattern : Nat}
    (hp : Packs d bindings op value pattern) {s : Segment} (hs : s ∈ d.layout.segments op.name)
    {i : Nat} (hsi : s.Has i) :
    w.bits.testBit i = pattern.testBit (s.offset + (i - s.lo)) := by
  obtain ⟨hfield, hname⟩ := mem_segments.mp hs
  have hi : i < d.wordSize.bits := Nat.lt_of_le_of_lt hsi.2 (hd.layout.field_within hfield).2
  rw [Bool.eq_iff_iff, testBit_encode hd h hi]
  constructor
  · rintro (⟨f, hf, hfi, -⟩ | ⟨op', hop', value', pattern', hp', t, ht, hti, hbit⟩)
    · exact absurd hsi (hd.layout.fixed_field hf hfield hfi)
    · obtain ⟨hfield', hname'⟩ := mem_segments.mp ht
      obtain rfl := hd.layout.field_unique hfield hfield' hsi hti
      obtain rfl := hd.operand_eq hop hop' (hname.symm.trans hname')
      rwa [(hp.unique hp').2]
  · exact fun hbit => .inr ⟨op, hop, value, pattern, hp, s, hs, hsi, hbit⟩

/-- **A packed word matches its own definition.** -/
theorem matchesWord_of_encode : d.matchesWord w = true := by
  rw [Definition.matchesWord, Bool.and_eq_true, decide_eq_true_iff, decide_eq_true_iff]
  refine ⟨(size_of_encode h).symm, ?_⟩
  rw [hd.layout.and_mask_eq_iff d.wordSize.bits_le]
  exact fun f hf i hfi => testBit_encode_fixed hd h hf hfi

/-- **Unpacking an operand gives back its value.** -/
theorem extractOperand_of_encode {op : Operand} (hop : op ∈ d.operands) :
    bindings.get? op.name = some (extractOperand d w.bits op) := by
  obtain ⟨value, pattern, hp⟩ := packs_of_encode h hop
  have hpattern :
      (d.layout.segments op.name).foldl (fun acc s => acc ||| pick w.bits s) 0 = pattern := by
    apply Nat.eq_of_testBit_eq
    intro j
    rw [Bool.eq_iff_iff, Bits.testBit_foldl_or, Nat.zero_testBit]
    simp only [Bool.false_eq_true, false_or]
    -- the word bit that carries bit `j` of the value holds that bit of the pattern
    have hpick : ∀ s ∈ d.layout.segments op.name,
        (pick w.bits s).testBit j = true ↔ s.Carries j ∧ pattern.testBit j = true := by
      intro s hs
      have hlen := segment_length hd (mem_segments.mp hs).1
      have hin := hd.layout.field_within (mem_segments.mp hs).1
      have hle := segment_le hd hop hs
      rw [testBit_pick (by omega)]
      refine and_congr_right fun hj => ?_
      have hsi : s.Has (s.lo + (j - s.offset)) := by
        obtain ⟨hj1, hj2⟩ := hj
        exact ⟨by omega, by omega⟩
      rw [testBit_encode_segment hd h hop hp hs hsi, Nat.add_sub_cancel_left,
        Nat.add_sub_cancel' hj.1]
    constructor
    · rintro ⟨s, hs, hbit⟩
      exact ((hpick s hs).mp hbit).2
    · intro hbit
      have hcov := (Bits.and_eq_left_iff _ _).mp hp.covered j hbit
      obtain ⟨s, hs, hj⟩ := (testBit_coverage hd hop j).mp hcov
      exact ⟨s, hs, (hpick s hs).mpr ⟨hj, hbit⟩⟩
  rw [extractOperand, hpattern, valueOf_pattern (hd.width op hop) hp.stands, hp.bound]

/-- **Unpacking a packed word gives back the operand values**, none lost and none added. -/
theorem extract_of_encode : extract d w.bits = bindings := by
  apply NameMap.ofList_eq
  · intro e he
    obtain ⟨op, hop, rfl⟩ := List.mem_map.mp he
    exact extractOperand_of_encode hd h hop
  · intro name hname
    obtain ⟨op, hop, rfl⟩ := (encode_eq_ok h).1 name hname
    exact List.mem_map.mpr ⟨_, List.mem_map.mpr ⟨op, hop, rfl⟩, rfl⟩

end Encoded

end Codec
end CustomIsa
