import Mathlib.Data.List.Nodup
import CustomIsa.Definition.Check
import CustomIsa.Proofs.Layout
/-! # What a checked definition guarantees

A definition that passes `Definition.check` has a valid layout, operands with names of their own and
sensible widths, and for each operand segments that can carry it (`Definition.Valid`). -/
namespace CustomIsa

theorem WordSize.bits_le (size : WordSize) : size.bits ≤ 32 := by
  cases size <;> decide

/-- The segments can carry the operand. Those of an immediate lie inside its width and carry no bit
of the value twice; a register has a single one, which stays within the registers. -/
def Operand.CarriedBy (op : Operand) (segments : List Segment) : Prop :=
  match op.kind with
  | .immediate =>
    (∀ s ∈ segments, s.offset + s.length ≤ op.width) ∧
      segments.Pairwise fun s t => s.valueMask &&& t.valueMask = 0
  | .register =>
    ∃ s, segments = [s] ∧ s.offset = 0 ∧ s.length ≤ 5 ∧ op.bias + 2 ^ s.length ≤ Register.count

theorem Operand.inInt64_of_inRange {op : Operand} {v : Int} (h : op.inRange v = true) :
    Bits.inInt64 v = true := by
  have hwidth : op.rangeWidth ≤ 63 := by
    rw [rangeWidth]
    omega
  have hpow : (2 : Int) ^ op.rangeWidth ≤ 2 ^ 63 := Bits.two_pow_le hwidth
  have hpow' : (2 : Int) ^ (op.rangeWidth - 1) ≤ 2 ^ 63 := Bits.two_pow_le (by omega)
  simp only [Bits.inInt64, Bool.and_eq_true, decide_eq_true_eq]
  rw [inRange, immediateRange] at h
  split at h <;> simp only [Bool.and_eq_true, decide_eq_true_eq] at h <;> omega

namespace Definition

/-- Layout and operands of a definition fit together. -/
structure Valid (d : Definition) : Prop where
  layout : d.layout.Valid d.wordSize.bits
  distinct : (d.operands.map Operand.name).Nodup
  width : ∀ op ∈ d.operands, 1 ≤ op.width ∧ op.width ≤ 64
  bias : ∀ op ∈ d.operands, op.bias < Register.count ∧ (op.kind = .immediate → op.bias = 0)
  declared : ∀ s ∈ d.layout.fields, ∃ op ∈ d.operands, op.name = s.operand
  carried : ∀ op ∈ d.operands, op.CarriedBy (d.layout.segments op.name)

theorem Valid.distinct_inputs {d : Definition} (hd : d.Valid) :
    (d.inputs.map Operand.name).Nodup :=
  hd.distinct.sublist (List.filter_sublist.map _)

theorem mem_of_operand {d : Definition} {name : String} {op : Operand}
    (h : d.operand? name = some op) : op ∈ d.operands ∧ op.name = name := by
  rw [operand?] at h
  exact ⟨List.mem_of_find?_eq_some h, by simpa using List.find?_some h⟩

/-! ## Operands on their own -/

theorem operandFault_eq_none {seen : List String} {op : Operand}
    (h : operandFault? seen op = none) :
    op.name ∉ seen ∧ (1 ≤ op.width ∧ op.width ≤ 64) ∧
      (op.bias < Register.count ∧ (op.kind = .immediate → op.bias = 0)) := by
  rw [operandFault?] at h
  split at h
  · cases h
  rename_i hseen
  split at h
  · cases h
  rename_i hwidth
  split at h
  · cases h
  rename_i hbias
  split at h
  · cases h
  rename_i hcount
  refine ⟨hseen, by omega, by omega, fun hkind => ?_⟩
  refine Classical.byContradiction fun hne => hbias ⟨hne, ?_⟩
  simp [Operand.isRegister, hkind]

theorem operandsFault_eq_none {seen : List String} {ops : List Operand}
    (h : operandsFault? seen ops = none) :
    (∀ op ∈ ops, op.name ∉ seen ∧ (1 ≤ op.width ∧ op.width ≤ 64) ∧
      (op.bias < Register.count ∧ (op.kind = .immediate → op.bias = 0))) ∧
    (ops.map Operand.name).Nodup := by
  induction ops generalizing seen with
  | nil => simp
  | cons op ops ih =>
    rw [operandsFault?, Option.or_eq_none_iff] at h
    have hop := operandFault_eq_none h.1
    obtain ⟨hall, hnodup⟩ := ih h.2
    refine ⟨?_, ?_⟩
    · intro o ho
      rcases List.mem_cons.mp ho with rfl | ho
      · exact hop
      · obtain ⟨hseen, hrest⟩ := hall o ho
        exact ⟨fun hmem => hseen (List.mem_cons_of_mem _ hmem), hrest⟩
    · rw [List.map_cons, List.nodup_cons]
      refine ⟨fun hmem => ?_, hnodup⟩
      obtain ⟨o, ho, heq⟩ := List.mem_map.mp hmem
      exact (hall o ho).1 (heq ▸ List.mem_cons_self)

/-! ## Operands and their segments -/

theorem immediateFault_eq_none {op : Operand} {covered : Nat} {segments : List Segment}
    (h : immediateFault? op covered segments = none) :
    (∀ s ∈ segments, s.offset + s.length ≤ op.width ∧ covered &&& s.valueMask = 0) ∧
      segments.Pairwise fun s t => s.valueMask &&& t.valueMask = 0 := by
  induction segments generalizing covered with
  | nil => simp
  | cons s segments ih =>
    rw [immediateFault?] at h
    split at h
    · cases h
    rename_i hwidth
    split at h
    · cases h
    rename_i hfree
    obtain ⟨hall, hapart⟩ := ih h
    have hsplit : ∀ t ∈ segments,
        covered &&& t.valueMask = 0 ∧ s.valueMask &&& t.valueMask = 0 := by
      intro t ht
      have hor := (hall t ht).2
      rw [Nat.and_or_distrib_right, Nat.or_eq_zero_iff] at hor
      exact hor
    refine ⟨?_, List.pairwise_cons.mpr ⟨fun t ht => (hsplit t ht).2, hapart⟩⟩
    intro t ht
    rcases List.mem_cons.mp ht with rfl | ht
    · exact ⟨by omega, Classical.byContradiction hfree⟩
    · exact ⟨(hall t ht).1, (hsplit t ht).1⟩

theorem registerFault_eq_none {op : Operand} {segments : List Segment}
    (h : registerFault? op segments = none) :
    ∃ s, segments = [s] ∧ s.offset = 0 ∧ s.length ≤ 5 ∧
      op.bias + 2 ^ s.length ≤ Register.count := by
  rw [registerFault?.eq_def] at h
  split at h
  · rename_i s
    split at h
    · cases h
    rename_i hfield
    split at h
    · cases h
    rename_i hreach
    exact ⟨s, rfl, by omega, by omega, by omega⟩
  · cases h

theorem fieldsFault_eq_none {op : Operand} {segments : List Segment}
    (h : fieldsFault? op segments = none) : op.CarriedBy segments := by
  rw [fieldsFault?] at h
  split at h
  · cases h
  rw [Operand.CarriedBy]
  cases hkind : op.kind with
  | immediate =>
    rw [hkind] at h
    obtain ⟨hall, hapart⟩ := immediateFault_eq_none h
    exact ⟨fun s hs => (hall s hs).1, hapart⟩
  | register =>
    rw [hkind] at h
    exact registerFault_eq_none h

/-! ## The check -/

/-- **A checked definition is valid.** -/
theorem valid_of_check {d : Definition} (h : d.check = .ok ()) : d.Valid := by
  rw [check] at h
  split at h
  · cases h
  split at h
  · cases h
  rename_i hlayout
  split at h
  · cases h
  rename_i hlater
  rw [laterFault?, Option.or_eq_none_iff, Option.or_eq_none_iff, Option.map_eq_none_iff] at hlater
  obtain ⟨⟨hops, hundeclared⟩, hfields⟩ := hlater
  obtain ⟨hall, hnodup⟩ := operandsFault_eq_none hops
  refine ⟨?_, hnodup, fun op hop => (hall op hop).2.1, fun op hop => (hall op hop).2.2, ?_, ?_⟩
  · exact (Layout.check_eq_ok_iff d.wordSize.bits_le).mp hlayout
  · intro s hs
    have hsome := List.find?_eq_none.mp hundeclared s hs
    rw [Bool.not_eq_true, Option.isNone_eq_false_iff, Option.isSome_iff_exists] at hsome
    obtain ⟨op, hop⟩ := hsome
    exact ⟨op, mem_of_operand hop⟩
  · intro op hop
    exact fieldsFault_eq_none (List.findSome?_eq_none_iff.mp hfields op hop)

/-- An operand is the only one with its name. -/
theorem Valid.operand_eq {d : Definition} (h : d.Valid) {op op' : Operand} (hop : op ∈ d.operands)
    (hop' : op' ∈ d.operands) (hname : op.name = op'.name) : op = op' :=
  List.inj_on_of_nodup_map h.distinct hop hop' hname

theorem Valid.operand?_eq {d : Definition} (h : d.Valid) {op : Operand} (hop : op ∈ d.operands) :
    d.operand? op.name = some op := by
  cases hfound : d.operand? op.name with
  | none =>
    have hother := List.find?_eq_none.mp hfound op hop
    simp at hother
  | some op' =>
    obtain ⟨hop', hname⟩ := mem_of_operand hfound
    rw [h.operand_eq hop' hop hname]

end Definition
end CustomIsa
