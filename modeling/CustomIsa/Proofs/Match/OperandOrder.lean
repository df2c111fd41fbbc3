import CustomIsa.Proofs.Canon.Similar
import CustomIsa.Proofs.Match.Footprint
/-! # Matching and the order of operands

Alignments go over to similar forms (`Match.Aligned.of_similar`): the search tries both orders of
operands and all pairings of terms, so where a form has them in another order some other choice
gives the same meetings, up to similar nodes. Guards read types and widths, repeated operands
compare keys, and only nodes that stand for a value can be bound, in all of which similar nodes
agree. The shift that a rounding form looks for is found in both forms, and what is left without its
constant is similar again (`Match.roundingShift_of_similar`). -/
namespace CustomIsa
open Canon (SimilarTerms similarTerms_iff)

theorem Canon.Similar.shape_eq {c c' : Canon} (h : c.Similar c') : c.shape? = c'.shape? := by
  cases h with
  | var | const | monadic | dyadic | swapped | select => rfl
  | sum _ hts hperm _ =>
    rw [Canon.shape?, Canon.shape?, (similarTerms_iff.mp hts).length_eq, hperm.length_eq]

namespace Match
variable {limits : Limits}

/-! ## Alignments -/

/-- What operands meet in similar forms: similar nodes, or the same constant. -/
inductive Slot.Similar : Slot → Slot → Prop where
  | node {c c' : Canon} (hc : c.Similar c') : Slot.Similar (.node c) (.node c')
  | imm (v : Int) : Slot.Similar (.imm v) (.imm v)

/-- One operand meets similar things. -/
def SimilarMeeting (m m' : Operand × Slot) : Prop := m.1 = m'.1 ∧ m.2.Similar m'.2

theorem GuardsHold.of_similar {guards : List Guard} {c c' : Canon}
    (h : GuardsHold limits guards c) (hc : c.Similar c') : GuardsHold limits guards c' := by
  have hinfo : c.info = c'.info := hc.origin.info
  have hty : c.ty = c'.ty := hc.origin.ty
  intro g hg
  rw [← hinfo, ← hty]
  exact h g hg

theorem MeetsConstant.similar {constant met : Int} {absorber : Option Operand}
    {ms : List (Operand × Slot)} (h : MeetsConstant constant absorber met ms) :
    List.Forall₂ SimilarMeeting ms ms := by
  cases h with
  | equal => exact .nil
  | absorbed => exact .cons ⟨rfl, .imm _⟩ .nil

mutual

/-- **A template that aligns with a form aligns with every similar form, and its operands meet
similar nodes.** -/
theorem Aligned.of_similar : ∀ {t : Template} {c c' : Canon} {ms : List (Operand × Slot)},
    Aligned limits t c ms → c.Similar c' →
    ∃ ms', Aligned limits t c' ms' ∧ List.Forall₂ SimilarMeeting ms ms'
  | _, _, _, _, .register hguards, hc =>
    ⟨_, .register (hguards.of_similar hc), .cons ⟨rfl, .node hc⟩ .nil⟩
  | _, _, _, _, .immediate hguards hv, hc =>
    ⟨_, .immediate (hguards.of_similar hc) (hc.constant ▸ hv), .cons ⟨rfl, .imm _⟩ .nil⟩
  | _, _, _, _, .const hguards hv, hc =>
    ⟨_, .const (hguards.of_similar hc) (hc.constant ▸ hv), .nil⟩
  | _, _, _, _, .monadic hguards ha, hc => by
    have hguards' := hguards.of_similar hc
    cases hc with
    | monadic _ hca =>
      obtain ⟨ms', ha', hms⟩ := ha.of_similar hca
      exact ⟨ms', .monadic hguards' ha', hms⟩
  | _, _, _, _, .direct hguards ha hb, hc => by
    have hguards' := hguards.of_similar hc
    cases hc with
    | dyadic _ hca hcb =>
      obtain ⟨ms', ha', hms⟩ := ha.of_similar hca
      obtain ⟨ns', hb', hns⟩ := hb.of_similar hcb
      exact ⟨ms' ++ ns', .direct hguards' ha' hb', List.rel_append hms hns⟩
    | swapped _ hop _ hca hcb =>
      obtain ⟨ms', ha', hms⟩ := ha.of_similar hca
      obtain ⟨ns', hb', hns⟩ := hb.of_similar hcb
      exact ⟨ms' ++ ns', .swapped hguards' hop ha' hb', List.rel_append hms hns⟩
  | _, _, _, _, .swapped hguards hcomm hb ha, hc => by
    have hguards' := hguards.of_similar hc
    cases hc with
    | dyadic _ hca hcb =>
      obtain ⟨ms', hb', hms⟩ := hb.of_similar hcb
      obtain ⟨ns', ha', hns⟩ := ha.of_similar hca
      exact ⟨ms' ++ ns', .swapped hguards' hcomm hb' ha', List.rel_append hms hns⟩
    | swapped _ _ _ hca hcb =>
      obtain ⟨ms', hb', hms⟩ := hb.of_similar hcb
      obtain ⟨ns', ha', hns⟩ := ha.of_similar hca
      exact ⟨ms' ++ ns', .direct hguards' hb' ha', List.rel_append hms hns⟩
  | _, _, _, _, .sum hguards hcount hpaired hconst hterms, hc => by
    have hguards' := hguards.of_similar hc
    cases hc with
    | sum _ hts hperm _ =>
      have hall := similarTerms_iff.mp hts
      -- the terms are paired with their counterparts, in the order of the template
      obtain ⟨paired', hpairs, hpaired'⟩ := List.perm_comp_forall₂ hpaired hall
      obtain ⟨ms', hterms', hms⟩ := hterms.of_similar (similarTerms_iff.mpr hpairs)
      rw [hall.length_eq, hperm.length_eq] at hcount
      exact ⟨_, .sum hguards' hcount (hpaired'.trans hperm) hconst hterms',
        List.rel_append hconst.similar hms⟩

theorem AlignedTerms.of_similar : ∀ {ts : List (Bool × Template)} {cs cs' : List (Bool × Canon)}
    {ms : List (Operand × Slot)}, AlignedTerms limits ts cs ms → SimilarTerms cs cs' →
    ∃ ms', AlignedTerms limits ts cs' ms' ∧ List.Forall₂ SimilarMeeting ms ms'
  | _, _, _, _, .nil, hcs => by
    cases hcs
    exact ⟨[], .nil, .nil⟩
  | _, _, _, _, .cons hfirst hrest, hcs => by
    cases hcs with
    | cons hc hcs =>
      obtain ⟨ms', hfirst', hms⟩ := hfirst.of_similar hc
      obtain ⟨ns', hrest', hns⟩ := hrest.of_similar hcs
      exact ⟨ms' ++ ns', .cons hfirst' hrest', List.rel_append hms hns⟩

end

/-! ## Meetings -/

/-- Operands of one name have met similar things first. -/
def SimilarSlot (s s' : String × Slot) : Prop := s.1 = s'.1 ∧ s.2.Similar s'.2

namespace Slot.Similar
variable {a a' b b' : Slot}

theorem fits_eq (h : a.Similar a') (op : Operand) : fits limits op a = fits limits op a' := by
  cases h with
  | node hc =>
    have hinfo := hc.origin.info
    simp only [fits, Canon.info, hinfo]
  | imm v => rfl

theorem agrees_eq (ha : a.Similar a') (hb : b.Similar b') : a.agrees b = a'.agrees b' := by
  cases ha with
  | node hc =>
    cases hb with
    | node hd => simp only [Slot.agrees, hc.key_eq, hd.key_eq]
    | imm v => rfl
  | imm v =>
    cases hb with
    | node hd => rfl
    | imm w => rfl

theorem boundOf?_isSome_eq (h : a.Similar a') : (boundOf? a).isSome = (boundOf? a').isSome := by
  cases h with
  | @node c c' hc =>
    simp only [boundOf?, hc.origin.synthetic]
    cases c'.origin.synthetic <;> rfl
  | imm v => rfl

end Slot.Similar

/-- A name is looked up with similar results, or without any. -/
theorem lookup_similar {slots slots' : List (String × Slot)}
    (h : List.Forall₂ SimilarSlot slots slots') (name : String) :
    slots.lookup name = none ∧ slots'.lookup name = none ∨
      ∃ a a', slots.lookup name = some a ∧ slots'.lookup name = some a' ∧ a.Similar a' := by
  induction h with
  | nil => exact .inl ⟨rfl, rfl⟩
  | @cons s s' _ _ hfirst _ ih =>
    obtain ⟨key, a⟩ := s
    obtain ⟨key', a'⟩ := s'
    obtain ⟨rfl, ha⟩ := hfirst
    rw [List.lookup_cons, List.lookup_cons]
    by_cases hname : (name == key) = true
    · rw [hname]
      exact .inr ⟨a, a', rfl, rfl, ha⟩
    · rw [Bool.eq_false_iff.mpr hname]
      exact ih

/-- One more meeting is had in both forms, or in none. -/
theorem meet_similar {slots slots' next : List (String × Slot)} {m m' : Operand × Slot}
    (hslots : List.Forall₂ SimilarSlot slots slots') (hm : SimilarMeeting m m')
    (h : meet limits slots m = some next) :
    ∃ next', meet limits slots' m' = some next' ∧ List.Forall₂ SimilarSlot next next' := by
  obtain ⟨op, a⟩ := m
  obtain ⟨op', a'⟩ := m'
  obtain ⟨rfl, ha⟩ := hm
  obtain ⟨hfits, hcase⟩ := meet_eq_some h
  have hfits' : fits limits op a' = true := (ha.fits_eq op).symm.trans hfits
  unfold meet
  rw [if_pos hfits']
  rcases hcase with ⟨hnone, rfl⟩ | ⟨before, hbefore, hagree, rfl⟩
  · rcases lookup_similar hslots op.name with ⟨-, hnone'⟩ | ⟨b, -, hb, -⟩
    · rw [hnone']
      exact ⟨_, rfl, .cons ⟨rfl, ha⟩ hslots⟩
    · cases hnone.symm.trans hb
  · rcases lookup_similar hslots op.name with ⟨hnone, -⟩ | ⟨b, b', hb, hb', hsimilar⟩
    · cases hnone.symm.trans hbefore
    · obtain rfl := Option.some.inj (hb.symm.trans hbefore)
      have hagree' : b'.agrees a' = true := (hsimilar.agrees_eq ha).symm.trans hagree
      simp only [hb', hagree', if_true]
      exact ⟨_, rfl, hslots⟩

/-- **Similar meetings can be had one after another alike.** -/
theorem meetAll_similar {slots slots' next : List (String × Slot)} {ms ms' : List (Operand × Slot)}
    (hslots : List.Forall₂ SimilarSlot slots slots') (hms : List.Forall₂ SimilarMeeting ms ms')
    (h : meetAll limits slots ms = some next) :
    ∃ next', meetAll limits slots' ms' = some next' ∧ List.Forall₂ SimilarSlot next next' := by
  induction hms generalizing slots slots' with
  | nil =>
    obtain rfl := Option.some.inj h
    exact ⟨slots', rfl, hslots⟩
  | cons hm _ ih =>
    rw [meetAll, List.foldlM_cons] at h
    obtain ⟨between, hmeet, hrest⟩ := Option.bind_eq_some_iff.mp h
    obtain ⟨between', hmeet', hbetween⟩ := meet_similar hslots hm hmeet
    obtain ⟨next', hrest', hnext⟩ := ih hbetween hrest
    refine ⟨next', ?_, hnext⟩
    rw [meetAll, List.foldlM_cons, hmeet']
    exact hrest'

/-- **A definition with a candidate at a form has one at every similar form.** -/
theorem attempt_similar {e : Entry} {c c' : Canon} (hc : c.Similar c')
    (h : (attempt limits e c).isSome = true) : (attempt limits e c').isSome = true := by
  cases ht : e.template with
  | none =>
    rw [attempt, ht] at h
    cases h
  | some t =>
    rw [attempt_isSome_iff ht] at h ⊢
    obtain ⟨ms, slots, haligned, hmeet, hbound⟩ := h
    obtain ⟨ms', haligned', hms⟩ := haligned.of_similar hc
    obtain ⟨slots', hmeet', hslots⟩ := meetAll_similar .nil hms hmeet
    refine ⟨ms', slots', haligned', hmeet', fun op hop slot' hslot' => ?_⟩
    rcases lookup_similar hslots op.name with ⟨-, hnone⟩ | ⟨a, a', ha, ha', hsimilar⟩
    · cases hnone.symm.trans hslot'
    · obtain rfl := Option.some.inj (ha'.symm.trans hslot')
      rw [← hsimilar.boundOf?_isSome_eq]
      exact hbound op hop a ha

/-! ## Rounding forms -/

theorem alike_markSynthetic {o o' : Origin} (h : o.Alike o') :
    (markSynthetic o).Alike (markSynthetic o') := ⟨h.ty, h.info, rfl⟩

/-- Without their constants, similar sums are similar. -/
theorem stripConstant_similar {o o' : Origin} {ts us ts' : List (Bool × Canon)} (ho : o.Alike o')
    (hts : SimilarTerms ts us) (hperm : us.Perm ts')
    (hkeys : Canon.termKeys us = Canon.termKeys ts') :
    (stripConstant o ts).Similar (stripConstant o' ts') := by
  rcases stripConstant_cases o ts with ⟨c, rfl, heq⟩ | heq
  · cases hts with
    | cons hc hnil =>
      cases hnil
      obtain rfl := List.singleton_perm.mp hperm
      exact hc
  · rcases stripConstant_cases o' ts' with ⟨c', rfl, -⟩ | heq'
    · -- a single added term has one counterpart, so the other sum is one too
      obtain rfl := List.perm_singleton.mp hperm
      cases hts with
      | cons hc hnil =>
        cases hnil
        exact hc
    · rw [heq, heq']
      exact .sum (alike_markSynthetic ho) hts hperm hkeys

theorem roundingShift_of_similar {c c' : Canon} (hc : c.Similar c') {shift : RoundingShift}
    (h : roundingShift? c = some shift) :
    ∃ shift', roundingShift? c' = some shift' ∧ shift.stripped.Similar shift'.stripped := by
  unfold roundingShift? at h
  split at h
  · rename_i o so terms constant adds amount
    split at h
    · rename_i k hk
      split at h
      · rename_i hround
        obtain rfl := Option.some.inj h
        cases hc with
        | dyadic ho hsum hamount =>
          rw [hamount.constant] at hk
          cases hsum with
          | @sum _ _ _ us ts' _ _ _ hso hts hperm hkeys =>
            obtain ⟨hlo, hhi, hterms, hhalf⟩ := hround
            have hterms' : ts' ≠ [] := by
              rintro rfl
              obtain rfl := List.perm_nil.mp hperm
              cases hts
              exact hterms rfl
            simp only [roundingShift?, hk, if_pos (⟨hlo, hhi, hterms', hhalf⟩ :
              1 ≤ k ∧ k ≤ 127 ∧ ts' ≠ [] ∧ constant = 2 ^ (k.toNat - 1))]
            exact ⟨_, rfl, .dyadic (alike_markSynthetic ho)
              (stripConstant_similar hso hts hperm hkeys) hamount⟩
        | swapped _ hop => cases hop
      · cases h
    · cases h
  · cases h

end Match

namespace Matcher
open Match
variable {m : Matcher}

/-- The definition has a candidate at the source node. -/
def FindsAt (m : Matcher) (e : Expr Nat) (d : Entry) : Prop :=
  ∃ cand ∈ m.matchAt e, cand.instruction.entry = d

/-- A definition has a candidate by its template, or as the rounding form of another one. -/
theorem findsAt_iff {e : Expr Nat} {d : Entry} :
    m.FindsAt e d ↔
      d ∈ m.shaped (Canon.ofExpr e) ∧ (attempt m.limits d (Canon.ofExpr e)).isSome = true ∨
      m.settings.roundingDetection = true ∧ ∃ shift, roundingShift? (Canon.ofExpr e) = some shift ∧
        ∃ base, (base, d) ∈ m.registry.roundingPairs ∧
          (attempt m.limits base shift.stripped).isSome = true := by
  constructor
  · rintro ⟨cand, hcand, rfl⟩
    rcases mem_candidates_iff.mp hcand with
      ⟨d, hd, hattempt⟩ | ⟨hon, shift, hshift, base, variant, hpair, hattempt⟩
    · obtain rfl := entry_of_attempt hattempt
      exact .inl ⟨hd, by rw [hattempt]; rfl⟩
    · obtain ⟨plain, hplain, rfl⟩ := Option.map_eq_some_iff.mp hattempt
      exact .inr ⟨hon, shift, hshift, base, hpair, by rw [hplain]; rfl⟩
  · rintro (⟨hd, hattempt⟩ | ⟨hon, shift, hshift, base, hpair, hattempt⟩)
    · obtain ⟨cand, hcand⟩ := Option.isSome_iff_exists.mp hattempt
      exact ⟨cand, mem_candidates_iff.mpr (.inl ⟨d, hd, hcand⟩), entry_of_attempt hcand⟩
    · obtain ⟨plain, hplain⟩ := Option.isSome_iff_exists.mp hattempt
      have hround : ∃ cand, attemptRounding m.limits shift base d = some cand ∧
          cand.instruction.entry = d := by
        rw [attemptRounding, hplain]
        exact ⟨_, rfl, rfl⟩
      obtain ⟨cand, hcand, hentry⟩ := hround
      exact ⟨cand, mem_candidates_iff.mpr (.inr ⟨hon, shift, hshift, base, d, hpair, hcand⟩),
        hentry⟩

/-- What has a candidate at a node has one at every node of similar form. -/
theorem FindsAt.of_similar {e e' : Expr Nat} {d : Entry} (h : m.FindsAt e d)
    (hform : (Canon.ofExpr e).Similar (Canon.ofExpr e')) : m.FindsAt e' d := by
  rw [findsAt_iff] at h ⊢
  rcases h with ⟨hd, hattempt⟩ | ⟨hon, shift, hshift, base, hpair, hattempt⟩
  · exact .inl ⟨by rwa [shaped, ← hform.shape_eq], attempt_similar hform hattempt⟩
  · obtain ⟨shift', hshift', hstripped⟩ := roundingShift_of_similar hform hshift
    exact .inr ⟨hon, shift', hshift', base, hpair, attempt_similar hstripped hattempt⟩

/-- **Matching does not depend on the order of operands.** Two expressions without a minus that
differ in the order of the operands of `+`, `*`, `&`, `|`, `^`, `==` and `!=` have candidates for
the same definitions at their roots. -/
theorem matchAt_operand_order (m : Matcher) {e e' : Expr Nat} (h : e.Reordered e')
    (hminus : e.MinusFree) (d : Entry) : m.FindsAt e d ↔ m.FindsAt e' d :=
  ⟨fun hfinds => hfinds.of_similar (h.similarForms hminus).form,
    fun hfinds => hfinds.of_similar (h.symm.similarForms (h.minusFree hminus)).form⟩

/-- A rounding form, found with the sum and the product under its shift either way round. -/
theorem matchAt_operand_order_rounding :
    ∃ r t t' d, Registry.load {} [Bundled.xcorev] = .ok r ∧
      ExprTree.ofText (.ofList [("x", .u8), ("y", .u8), ("z", .u16)]) "(z + x * y + 8) >> 4" =
        .ok t ∧
      ExprTree.ofText (.ofList [("x", .u8), ("y", .u8), ("z", .u16)]) "(8 + (y * x + z)) >> 4" =
        .ok t' ∧
      t.root.Reordered t'.root ∧ t.root.MinusFree ∧ Entry.name d = "cv.macurn" ∧
      (Matcher.new r {}).FindsAt t.root d ∧ (Matcher.new r {}).FindsAt t'.root d := by
  have hrun : (Registry.load {} [Bundled.xcorev]).toOption.any (fun r =>
      (ExprTree.ofText (.ofList [("x", .u8), ("y", .u8), ("z", .u16)])
        "(z + x * y + 8) >> 4").toOption.any fun t =>
      (ExprTree.ofText (.ofList [("x", .u8), ("y", .u8), ("z", .u16)])
        "(8 + (y * x + z)) >> 4").toOption.any fun t' =>
        t.root = .binary 8 .shr (.binary 6 .add (.binary 4 .add (.var 0 "z" .u16)
          (.binary 3 .mul (.var 1 "x" .u8) (.var 2 "y" .u8))) (.const 5 8 .i32))
          (.const 7 4 .i32) &&
        t'.root = .binary 8 .shr (.binary 6 .add (.const 0 8 .i32) (.binary 5 .add
          (.binary 3 .mul (.var 1 "y" .u8) (.var 2 "x" .u8)) (.var 4 "z" .u16)))
          (.const 7 4 .i32) &&
        ((Matcher.new r {}).matchAt t.root).any
          fun cand => Entry.name cand.instruction.entry = "cv.macurn") = true := by
    decide +kernel
  obtain ⟨r, hload, hrun⟩ := Option.any_eq_true _ _ |>.mp hrun
  obtain ⟨t, htext, hrun⟩ := Option.any_eq_true _ _ |>.mp hrun
  obtain ⟨t', htext', hrun⟩ := Option.any_eq_true _ _ |>.mp hrun
  rw [Bool.and_eq_true, Bool.and_eq_true, decide_eq_true_iff, decide_eq_true_iff,
    List.any_eq_true] at hrun
  obtain ⟨⟨hroot, hroot'⟩, cand, hcand, hname⟩ := hrun
  have hswaps : t.root.Reordered t'.root := by
    rw [hroot, hroot']
    exact .binary (.swapped rfl (.swapped rfl .var (.swapped rfl .var .var)) .const) .const
  have hminus : t.root.MinusFree := by
    rw [hroot]
    simp [Expr.MinusFree]
  have hfinds : (Matcher.new r {}).FindsAt t.root cand.instruction.entry := ⟨cand, hcand, rfl⟩
  exact ⟨r, t, t', _, eq_ok_of_toOption hload, eq_ok_of_toOption htext, eq_ok_of_toOption htext',
    hswaps, hminus, of_decide_eq_true hname, hfinds,
    (matchAt_operand_order _ hswaps hminus _).mp hfinds⟩

end Matcher
end CustomIsa
