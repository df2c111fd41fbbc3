import Mathlib.Algebra.Group.Int.Defs
import Mathlib.Algebra.Group.Nat.Defs
import CustomIsa.Proofs.Registry.RoundTrip
/-! # Encoding what was decoded

A word that decodes is encoded again from what it decoded to, except where the range of an immediate
is narrower than its fields: the range of a 64-bit immediate is that of 63 bits. So the word comes
back exactly if bit 63 of every such immediate says no more than the bits below it
(`Codec.Legible`, `Registry.encode_of_decode`).

The operand values of a matching word are packed again segment by segment: each value stands for the
pattern that it was read from (`Codec.pattern_valueOf_iff`), and every bit of the word is fixed or
in a segment, so the packed word is the word itself (`Codec.encode_extract_iff`). -/
namespace CustomIsa

namespace Codec
variable {d : Definition}

/-! ## The pattern of an operand in a word -/

/-- The bits of an operand's value that its segments hold in a word. -/
def gathered (d : Definition) (bits : Nat) (op : Operand) : Nat :=
  (d.layout.segments op.name).foldl (fun acc s => acc ||| pick bits s) 0

theorem testBit_gathered (hd : d.Valid) {op : Operand} (hop : op ∈ d.operands) (bits j : Nat) :
    (gathered d bits op).testBit j = true ↔
      ∃ s ∈ d.layout.segments op.name, s.Carries j ∧
        bits.testBit (s.lo + (j - s.offset)) = true := by
  rw [gathered, Bits.testBit_foldl_or, Nat.zero_testBit]
  simp only [Bool.false_eq_true, false_or]
  refine exists_congr fun s => and_congr_right fun hs => ?_
  have hle := segment_le hd hop hs
  exact testBit_pick (by omega) bits j

/-- The pattern in a word has no bits that the segments do not carry. -/
theorem gathered_covered (hd : d.Valid) {op : Operand} (hop : op ∈ d.operands) (bits : Nat) :
    gathered d bits op &&& (d.layout.coverage op.name).2 = gathered d bits op := by
  rw [Bits.and_eq_left_iff]
  intro j hj
  obtain ⟨s, hs, hcarries, -⟩ := (testBit_gathered hd hop bits j).mp hj
  exact (testBit_coverage hd hop j).mpr ⟨s, hs, hcarries⟩

theorem gathered_lt (hd : d.Valid) {op : Operand} (hop : op ∈ d.operands) (bits : Nat) {n : Nat}
    (hn : ∀ s ∈ d.layout.segments op.name, s.offset + s.length ≤ n) :
    gathered d bits op < 2 ^ n := by
  apply Nat.lt_pow_two_of_testBit
  intro j hj
  rw [Bool.eq_false_iff]
  intro hbit
  obtain ⟨s, hs, hcarries, -⟩ := (testBit_gathered hd hop bits j).mp hbit
  have hle := hn s hs
  have hlt := hcarries.2
  omega

/-- A bit of an operand's value is carried by one of its segments at most. -/
theorem carries_unique (hd : d.Valid) {op : Operand} (hop : op ∈ d.operands) {s t : Segment}
    (hs : s ∈ d.layout.segments op.name) (ht : t ∈ d.layout.segments op.name) {j : Nat}
    (hsj : s.Carries j) (htj : t.Carries j) : s = t := by
  have hcarried := hd.carried op hop
  rw [Operand.CarriedBy] at hcarried
  cases hkind : op.kind with
  | register =>
    rw [hkind] at hcarried
    obtain ⟨only, honly, -⟩ := hcarried
    rw [honly, List.mem_singleton] at hs ht
    rw [hs, ht]
  | immediate =>
    rw [hkind] at hcarried
    have hmask : ∀ u ∈ d.layout.segments op.name, ∀ i,
        u.valueMask.testBit i = true ↔ u.Carries i := by
      intro u hu
      have hlen := segment_length hd (mem_segments.mp hu).1
      exact Segment.testBit_valueMask (segment_le hd hop hu) (by omega)
    have hapart : (d.layout.segments op.name).Pairwise fun a b =>
        ∀ i, a.Carries i → ¬b.Carries i := by
      refine hcarried.2.imp_of_mem fun {a b} ha hb hzero i hai hbi => ?_
      have hclear := (Bits.and_eq_zero_iff _ _).mp hzero i ((hmask a ha i).mpr hai)
      rw [(hmask b hb i).mpr hbi] at hclear
      cases hclear
    exact Layout.eq_of_apart hapart hs ht hsj htj

/-- A segment of a word holds the bits of its operand's pattern. -/
theorem testBit_gathered_segment (hd : d.Valid) {op : Operand} (hop : op ∈ d.operands)
    {s : Segment} (hs : s ∈ d.layout.segments op.name) (bits : Nat) {i : Nat} (hi : s.Has i) :
    (gathered d bits op).testBit (s.offset + (i - s.lo)) = bits.testBit i := by
  have hin := hd.layout.field_within (mem_segments.mp hs).1
  have hlen := segment_length hd (mem_segments.mp hs).1
  obtain ⟨hlo, hhi⟩ := hi
  have hcarries : s.Carries (s.offset + (i - s.lo)) := ⟨by omega, by omega⟩
  have hplace : s.lo + (s.offset + (i - s.lo) - s.offset) = i := by omega
  rw [Bool.eq_iff_iff, testBit_gathered hd hop]
  constructor
  · rintro ⟨t, ht, htj, hbit⟩
    obtain rfl := carries_unique hd hop hs ht hcarries htj
    rwa [hplace] at hbit
  · intro hbit
    exact ⟨s, hs, hcarries, by rwa [hplace]⟩

/-! ## Values that can be packed again -/

/-- The pattern stands for a value in the range of the operand. The range of a 64-bit immediate is
that of 63 bits: bit 63 has to repeat bit 62 if the immediate is signed, and to be clear if not. -/
def Legible (op : Operand) (pattern : Nat) : Prop :=
  op.kind = .immediate → op.width = 64 →
    pattern.testBit 63 = (op.signed && pattern.testBit 62)

theorem testBit_top {pattern : Nat} (h : pattern < 2 ^ 64) :
    pattern.testBit 63 = decide (2 ^ 63 ≤ pattern) ∧
      pattern.testBit 62 = decide (2 ^ 62 ≤ pattern % 2 ^ 63) := by
  rw [Nat.testBit_eq_decide_div_mod_eq, Nat.testBit_eq_decide_div_mod_eq, decide_eq_decide,
    decide_eq_decide]
  omega

/-- A sign-extended pattern is a two's complement number that agrees with the pattern. -/
theorem signExtend_spec {pattern bits : Nat} (hpattern : pattern < 2 ^ bits) (hpos : 1 ≤ bits)
    (hle : bits ≤ 64) :
    (-(2 ^ (bits - 1) : Int) ≤ Bits.signExtend pattern bits ∧
      Bits.signExtend pattern bits < 2 ^ (bits - 1)) ∧
    Bits.signExtend pattern bits % 2 ^ bits = pattern := by
  have hpow : (2 : Nat) ^ bits = 2 * 2 ^ (bits - 1) := by
    rw [← Nat.pow_succ', Nat.succ_eq_add_one, Nat.sub_add_cancel hpos]
  have hcast : ((2 ^ (bits - 1) : Nat) : Int) = 2 ^ (bits - 1) := by simp
  have hcast' : ((2 ^ bits : Nat) : Int) = 2 ^ bits := by simp
  have hlow := Int.le_bmod (x := (pattern : Int)) (m := 2 ^ bits) (Nat.two_pow_pos _)
  have hhigh := Int.bmod_lt (x := (pattern : Int)) (m := 2 ^ bits) (Nat.two_pow_pos _)
  rw [Bits.signExtend, Nat.min_eq_left hle]
  refine ⟨⟨by omega, by omega⟩, ?_⟩
  rw [← hcast', Int.bmod_emod]
  exact Int.emod_eq_of_lt (by omega) (by omega)

theorem inRange_signed_iff {op : Operand} {pattern : Nat} (hsigned : op.signed = true)
    (hwidth : 1 ≤ op.width ∧ op.width ≤ 64) (hpattern : pattern < 2 ^ op.width) :
    op.inRange (Bits.signExtend pattern op.width) = true ↔
      (op.width = 64 → pattern.testBit 63 = pattern.testBit 62) := by
  obtain ⟨⟨hlow, hhigh⟩, hmod⟩ := signExtend_spec hpattern hwidth.1 hwidth.2
  simp only [Operand.inRange, Operand.immediateRange, hsigned, if_true, Bool.and_eq_true,
    decide_eq_true_eq]
  by_cases htop : op.width = 64
  · obtain ⟨h63, h62⟩ := testBit_top (htop ▸ hpattern)
    have hrange : op.rangeWidth = 63 := by rw [Operand.rangeWidth, htop]; rfl
    rw [htop] at hlow hhigh hmod hpattern ⊢
    simp only [hrange, h63, h62, decide_eq_decide, Nat.reduceSub, forall_const] at hlow hhigh ⊢
    omega
  · have hrange : op.rangeWidth = op.width := by rw [Operand.rangeWidth]; omega
    rw [hrange]
    exact iff_of_true ⟨hlow, by omega⟩ fun h => absurd h htop

theorem inRange_unsigned_iff {op : Operand} {pattern : Nat} (hsigned : op.signed = false)
    (hwidth : 1 ≤ op.width ∧ op.width ≤ 64) (hpattern : pattern < 2 ^ op.width) :
    op.inRange (Bits.signExtend pattern 64) = true ↔
      (op.width = 64 → pattern.testBit 63 = false) := by
  have hwide : pattern < 2 ^ 64 :=
    Nat.lt_of_lt_of_le hpattern (Nat.pow_le_pow_right (by decide) hwidth.2)
  obtain ⟨⟨hlow, hhigh⟩, hmod⟩ := signExtend_spec hwide (by decide) (by decide)
  simp only [Operand.inRange, Operand.immediateRange, hsigned, Bool.false_eq_true, if_false,
    Bool.and_eq_true, decide_eq_true_eq]
  by_cases htop : op.width = 64
  · have hrange : op.rangeWidth = 63 := by rw [Operand.rangeWidth, htop]; rfl
    simp only [hrange, htop, (testBit_top hwide).1, decide_eq_false_iff_not, Nat.reduceSub,
      forall_const] at hlow hhigh ⊢
    omega
  · have hrange : op.rangeWidth = op.width := by rw [Operand.rangeWidth]; omega
    have hsmall : pattern < 2 ^ 63 :=
      Nat.lt_of_lt_of_le hpattern (Nat.pow_le_pow_right (by decide) (by omega))
    have hcast : ((2 ^ op.width : Nat) : Int) = 2 ^ op.width := by simp
    rw [hrange]
    refine iff_of_true ⟨by omega, by omega⟩ fun h => absurd h htop

/-- A value in range stands for the pattern that it was read from. -/
theorem emod_valueOf {op : Operand} {pattern : Nat} (hwidth : 1 ≤ op.width ∧ op.width ≤ 64)
    (hpattern : pattern < 2 ^ op.width) :
    Bits.signExtend pattern (if op.signed then op.width else 64) % 2 ^ op.width = pattern := by
  have hcast : ((2 ^ op.width : Nat) : Int) = 2 ^ op.width := by simp
  split
  · exact (signExtend_spec hpattern hwidth.1 hwidth.2).2
  · have hwide : pattern < 2 ^ 64 :=
      Nat.lt_of_lt_of_le hpattern (Nat.pow_le_pow_right (by decide) hwidth.2)
    have hdvd : (2 : Int) ^ op.width ∣ 2 ^ 64 := by
      exact_mod_cast Nat.pow_dvd_pow 2 hwidth.2
    rw [← Int.emod_emod_of_dvd _ hdvd, (signExtend_spec hwide (by decide) (by decide)).2]
    exact Int.emod_eq_of_lt (by omega) (by omega)

/-- **A value stands for the pattern that it was read from, if that is legible, and for no
other.** -/
theorem pattern_valueOf_iff {op : Operand} {pattern q : Nat}
    (hwidth : 1 ≤ op.width ∧ op.width ≤ 64)
    (hregister : op.kind = .register → pattern + op.bias < Register.count)
    (himmediate : op.kind = .immediate → pattern < 2 ^ op.width) :
    pattern? op (valueOf op pattern) = some q ↔ q = pattern ∧ Legible op pattern := by
  rw [pattern?, valueOf, Legible]
  cases hkind : op.kind with
  | register =>
    have hlt := hregister hkind
    have hback : ((pattern : Int) + op.bias - op.bias).toNat = pattern := by omega
    simp only [reduceCtorEq, false_imp_iff, and_true]
    rw [if_pos (by omega), hback, Option.some.injEq, eq_comm]
  | immediate =>
    have hpattern := himmediate hkind
    have hrange : op.inRange (Bits.signExtend pattern (if op.signed then op.width else 64)) = true ↔
        (op.width = 64 → pattern.testBit 63 = (op.signed && pattern.testBit 62)) := by
      cases hsigned : op.signed with
      | true => simpa using inRange_signed_iff hsigned hwidth hpattern
      | false => simpa using inRange_unsigned_iff hsigned hwidth hpattern
    simp only [forall_const, ← hrange, Nat.min_eq_left hwidth.2, emod_valueOf hwidth hpattern,
      Int.toNat_natCast, Option.ite_none_right_eq_some, Option.some.injEq]
    rw [and_comm, eq_comm (a := pattern)]

/-! ## Packing what was read -/

theorem get?_extract (hd : d.Valid) (bits : Nat) {op : Operand} (hop : op ∈ d.operands) :
    (extract d bits).get? op.name = some (extractOperand d bits op) := by
  have hnames : (d.operands.map fun op => (op.name, extractOperand d bits op)).map Prod.fst =
      d.operands.map Operand.name := by
    rw [List.map_map]
    rfl
  have hmem := List.mem_map_of_mem (f := fun op => (op.name, extractOperand d bits op)) hop
  exact NameMap.get?_ofList (by rw [hnames]; exact hd.distinct) hmem

/-- The operand values of a word can be packed again exactly if their patterns are legible, and then
they stand for these patterns. -/
theorem packs_extract_iff (hd : d.Valid) (bits : Nat) {op : Operand} (hop : op ∈ d.operands)
    {value : Int} {pattern : Nat} :
    Packs d (extract d bits) op value pattern ↔
      value = extractOperand d bits op ∧ pattern = gathered d bits op ∧
        Legible op (gathered d bits op) := by
  have hcarried := hd.carried op hop
  rw [Operand.CarriedBy] at hcarried
  have hregister : op.kind = .register → gathered d bits op + op.bias < Register.count := by
    intro hkind
    rw [hkind] at hcarried
    obtain ⟨s, hs, hoffset, -, hreach⟩ := hcarried
    have hlt : gathered d bits op < 2 ^ s.length := by
      refine gathered_lt hd hop bits fun t ht => ?_
      obtain rfl := List.mem_singleton.mp (hs ▸ ht)
      omega
    omega
  have himmediate : op.kind = .immediate → gathered d bits op < 2 ^ op.width := by
    intro hkind
    rw [hkind] at hcarried
    exact gathered_lt hd hop bits hcarried.1
  have hstands := fun q =>
    pattern_valueOf_iff (q := q) (hd.width op hop) hregister himmediate
  constructor
  · rintro ⟨hbound, hpattern, -⟩
    rw [get?_extract hd bits hop, Option.some.injEq] at hbound
    subst hbound
    exact ⟨rfl, (hstands pattern).mp hpattern⟩
  · rintro ⟨rfl, rfl, hlegible⟩
    exact ⟨get?_extract hd bits hop, (hstands _).mpr ⟨rfl, hlegible⟩, gathered_covered hd hop bits⟩

theorem encodeOperands_of_packs {bindings : Bindings} {ops : List Operand}
    (h : ∀ op ∈ ops, ∃ value pattern, Packs d bindings op value pattern) (bits : Nat) :
    ∃ packed, encodeOperands d bindings bits ops = .ok packed := by
  induction ops generalizing bits with
  | nil => exact ⟨bits, rfl⟩
  | cons op ops ih =>
    rw [List.forall_mem_cons] at h
    obtain ⟨⟨value, pattern, hpacks⟩, hrest⟩ := h
    simp only [encodeOperands, hpacks.bound, hpacks.stands, hpacks.covered, ne_eq,
      not_true_eq_false, if_false]
    exact ih hrest _

/-- Packing succeeds exactly if every name is an operand, and every operand is bound to a value that
its segments hold. -/
theorem encode_isOk_iff {bindings : Bindings} :
    (∃ w, encode d bindings = .ok w) ↔
      (∀ name ∈ bindings.names, ∃ op ∈ d.operands, op.name = name) ∧
      ∀ op ∈ d.operands, ∃ value pattern, Packs d bindings op value pattern := by
  constructor
  · rintro ⟨w, h⟩
    exact ⟨(encode_eq_ok h).1, fun op hop => packs_of_encode h hop⟩
  · rintro ⟨hknown, hpacks⟩
    have hfind : bindings.names.find? (fun name => (d.operand? name).isNone) = none := by
      rw [List.find?_eq_none]
      intro name hname
      obtain ⟨op, hop, rfl⟩ := hknown name hname
      simp only [Definition.operand?, Option.isNone_iff_eq_none, List.find?_eq_none,
        decide_eq_true_eq]
      exact fun hnone => hnone op hop rfl
    obtain ⟨packed, hpacked⟩ := encodeOperands_of_packs hpacks d.layout.matchBits
    refine ⟨Word.ofBits d.wordSize packed, ?_⟩
    rw [encode, hfind, hpacked]
    rfl

/-- What is packed from the operand values of a matching word is the word. -/
theorem eq_of_encode_extract (hd : d.Valid) {w w' : Word} (hw : d.matchesWord w = true)
    (h : encode d (extract d w.bits) = .ok w') : w' = w := by
  obtain ⟨hsize, hmatch⟩ := Definition.matchesWord_iff.mp hw
  have hsize' := size_of_encode h
  have hfits := w.fits
  have hfits' := w'.fits
  have hbits : w'.bits = w.bits := by
    apply Nat.eq_of_testBit_eq
    intro i
    by_cases hi : i < d.wordSize.bits
    · -- the bit is fixed or in a segment, and both hold there what the word holds
      obtain ⟨r, hr, hri⟩ := hd.layout.covered i hi
      rcases List.mem_append.mp hr with hr | hr
      · obtain ⟨f, hf, rfl⟩ := List.mem_map.mp hr
        rw [testBit_encode_fixed hd h hf hri,
          (hd.layout.and_mask_eq_iff d.wordSize.bits_le _).mp hmatch f hf i hri]
      · obtain ⟨s, hs, rfl⟩ := List.mem_map.mp hr
        obtain ⟨op, hop, hname⟩ := hd.declared s hs
        have hseg : s ∈ d.layout.segments op.name := mem_segments.mpr ⟨hs, hname.symm⟩
        obtain ⟨value, pattern, hpacks⟩ := packs_of_encode h hop
        rw [testBit_encode_segment hd h hop hpacks hseg hri,
          ((packs_extract_iff hd w.bits hop).mp hpacks).2.1,
          testBit_gathered_segment hd hop hseg w.bits hri]
    · rw [hsize'] at hfits'
      rw [← hsize] at hfits
      rw [Bits.testBit_eq_false_of_lt hfits (by omega),
        Bits.testBit_eq_false_of_lt hfits' (by omega)]
  cases w
  cases w'
  simp only at hsize hsize' hbits
  subst hbits
  subst hsize
  subst hsize'
  rfl

/-- **A matching word is packed again from its operand values exactly if their patterns are
legible.** -/
theorem encode_extract_iff (hd : d.Valid) {w : Word} (hw : d.matchesWord w = true) :
    encode d (extract d w.bits) = .ok w ↔
      ∀ op ∈ d.operands, Legible op (gathered d w.bits op) := by
  constructor
  · intro h op hop
    obtain ⟨value, pattern, hpacks⟩ := packs_of_encode h hop
    exact ((packs_extract_iff hd w.bits hop).mp hpacks).2.2
  · intro hlegible
    have hpacks : ∀ op ∈ d.operands, ∃ value pattern,
        Packs d (extract d w.bits) op value pattern :=
      fun op hop => ⟨_, _, (packs_extract_iff hd w.bits hop).mpr ⟨rfl, rfl, hlegible op hop⟩⟩
    have hknown : ∀ name ∈ (extract d w.bits).names, ∃ op ∈ d.operands, op.name = name := by
      intro name hname
      obtain ⟨e, he, rfl⟩ := List.mem_map.mp (NameMap.mem_of_mem_names_ofList hname)
      obtain ⟨op, hop, rfl⟩ := List.mem_map.mp he
      exact ⟨op, hop, rfl⟩
    obtain ⟨w', hencode⟩ := encode_isOk_iff.mpr ⟨hknown, hpacks⟩
    rw [hencode, eq_of_encode_extract hd hw hencode]

end Codec

namespace Registry

/-- **What was decoded is encoded again.** A word that decodes is reproduced from what it decoded to
exactly if the word has legible patterns for all operands: of an immediate of 64 bits, bit 63
repeats bit 62 or, if the immediate is unsigned, is clear. -/
theorem encode_of_decode {settings : RegistrySettings} {extensions : List Extension} {r : Registry}
    (hload : load settings extensions = .ok r) {w : Word} {decoded : Decoded}
    (hdecode : r.decode w = .ok decoded) :
    r.encode decoded.entry decoded.bindings = .ok w ↔
      ∀ op ∈ decoded.entry.definition.operands, op.kind = .immediate → op.width = 64 →
        (Codec.gathered decoded.entry.definition w.bits op).testBit 63 =
          (op.signed && (Codec.gathered decoded.entry.definition w.bits op).testBit 62) := by
  have hr := loaded_of_load hload
  rw [decode] at hdecode
  split at hdecode
  · cases hdecode
  rename_i e hlookup
  obtain rfl := Except.ok.inj hdecode
  have hspecific := hr.lookup?_eq_some_iff.mp hlookup
  have hiff := Codec.encode_extract_iff (hr.valid hspecific.mem) hspecific.fits
  refine Iff.trans ?_ hiff
  constructor
  · intro h
    exact (encode_eq_ok h).1
  · intro h
    rw [encode, h]
    simp only [hlookup, if_true]

/-- One definition with a signed immediate of 64 bits, of which the word carries the upper 25. -/
def wideImmediate : Extension where
  label := "x"
  instructions := [
    { mnemonic := "lui"
      operands := [⟨"imm", .immediate, 64, true, .input, 0⟩]
      layout := ⟨[⟨6, 0, 0x2b⟩], [⟨"imm", 31, 7, 39⟩]⟩ }]

/-- The least value in the range comes back: the two upper bits of its pattern are the same. -/
theorem encode_of_decode_least :
    ∃ r decoded, load {} [wideImmediate] = .ok r ∧
      r.decode ⟨.full, 0xc000002b, by decide⟩ = .ok decoded ∧
      decoded.bindings.get? "imm" = some (-2 ^ 62) ∧
      r.encode decoded.entry decoded.bindings = .ok ⟨.full, 0xc000002b, by decide⟩ := by
  have hrun : (load {} [wideImmediate]).toOption.any (fun r =>
      (r.decode ⟨.full, 0xc000002b, by decide⟩).toOption.any fun decoded =>
        decoded.bindings.get? "imm" = some (-2 ^ 62) &&
          decoded.entry.definition.operands.all fun op =>
            (Codec.gathered decoded.entry.definition 0xc000002b op).testBit 63 =
              (op.signed && (Codec.gathered decoded.entry.definition 0xc000002b op).testBit 62)) =
      true := by
    decide +kernel
  obtain ⟨r, hload, hany⟩ := Option.any_eq_true _ _ |>.mp hrun
  obtain ⟨decoded, hdecode, hcase⟩ := Option.any_eq_true _ _ |>.mp hany
  rw [Bool.and_eq_true, decide_eq_true_iff, List.all_eq_true] at hcase
  have hload := eq_ok_of_toOption hload
  have hdecode := eq_ok_of_toOption hdecode
  refine ⟨r, decoded, hload, hdecode, hcase.1, (encode_of_decode hload hdecode).mpr ?_⟩
  intro op hop _ _
  exact of_decide_eq_true (hcase.2 op hop)

/-- **Not every word that decodes comes back.** The word whose immediate has bit 63 alone decodes,
and the value is refused as out of the range of its operand. -/
theorem encode_refuses_decoded :
    ∃ r decoded, load {} [wideImmediate] = .ok r ∧
      r.decode ⟨.full, 0x8000002b, by decide⟩ = .ok decoded ∧
      decoded.bindings.get? "imm" = some (-2 ^ 63) ∧
      (r.encode decoded.entry decoded.bindings).toOption = none := by
  have hrun : (load {} [wideImmediate]).toOption.any (fun r =>
      (r.decode ⟨.full, 0x8000002b, by decide⟩).toOption.any fun decoded =>
        decoded.bindings.get? "imm" = some (-2 ^ 63) &&
          (r.encode decoded.entry decoded.bindings).toOption.isNone) = true := by
    decide +kernel
  obtain ⟨r, hload, hany⟩ := Option.any_eq_true _ _ |>.mp hrun
  obtain ⟨decoded, hdecode, hcase⟩ := Option.any_eq_true _ _ |>.mp hany
  rw [Bool.and_eq_true, decide_eq_true_iff, Option.isNone_iff_eq_none] at hcase
  exact ⟨r, decoded, eq_ok_of_toOption hload, eq_ok_of_toOption hdecode, hcase⟩

end Registry
end CustomIsa
