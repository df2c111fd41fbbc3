import CustomIsa.Proofs.Canon.Additions
import CustomIsa.Proofs.Match.Rounding
/-! # Sums under a rounding form

A candidate for a rounding form replaces a right shift of a sum (`Canon.ShiftsSum`). Where the
template guards the operand of the shift against wrapping, the guard is read at what is left of the
sum without the constant: at the sum with its own analysis, or at its only term
(`Matcher.rounded_sum_unwrapped`). The additions that are consumed with the constant are those of
the chain with an operand that folds to a constant (`Matcher.consumed_iff_folds`). -/
namespace CustomIsa

/-- The form of `p` is a right shift of the sum that is gathered from `s`, with the given parts. -/
structure Canon.ShiftsSum (p s : Expr Nat) (so : Origin) (terms : List (Bool × Canon)) (k : Int)
    (adds : List Nat) : Prop where
  form : ∃ o amount, ofExpr p = .dyadic o .shr (.sum so terms k adds) amount
  mem : s ∈ p.preorder
  gathered : Gathered s so terms k adds

theorem Match.Aligned.guardsHold {limits : Limits} {t : Template} {c : Canon}
    {ms : List (Operand × Slot)} (h : Aligned limits t c ms) : GuardsHold limits t.guards c := by
  cases h with
  | register h | immediate h | const h | monadic h | direct h | swapped h | sum h => exact h

namespace Matcher
open Match Registry

section Loaded
variable {config : RegistrySettings} {extensions : List Extension} {r : Registry}
  (hload : load config extensions = .ok r)
include hload

/-- A candidate for a rounding form that a matcher returns replaces a right shift of a sum, to which
the nodes belong that it consumes. -/
theorem shiftsSum_of_returns {settings : MatchSettings} {t : ExprTree} (ht : t.Assembled)
    {cand : Candidate} (h : (Matcher.new r settings).Returns t cand) {base : Entry}
    (hpair : (base, cand.instruction.entry) ∈ r.roundingPairs) :
    ∃ p ∈ t.nodes, p.tag = cand.root ∧ ∃ s so terms k adds, Canon.ShiftsSum p s so terms k adds ∧
      cand.consumed = adds ∧ ∃ o amount plain, attempt (Matcher.new r settings).limits base
        (.dyadic o .shr (stripConstant so terms) amount) = some plain := by
  obtain ⟨p, hp, hcand⟩ := matched_of_returns ht.indexed h
  obtain ⟨shift, plain, hshift, hplain, hconsumed⟩ := rounding_of_mem hload hpair hcand
  obtain ⟨o, so, terms, k, adds, amount, hform, rfl⟩ := roundingShift_eq_some hshift
  have hchild : Canon.sum so terms k adds ∈ (Canon.ofExpr p).children := by
    rw [hform]
    exact List.mem_cons_self
  obtain ⟨operand, hunder, hsum⟩ := Canon.child_ofExpr hchild
  obtain ⟨s, hs, hgathered⟩ := Canon.gathered_ofExpr hsum.symm
  exact ⟨p, hp, (wellFormed_of_mem hload hcand).root.symm, s, so, terms, k, adds,
    ⟨⟨o, amount, hform⟩, Expr.mem_preorder_trans hunder.mem hs, hgathered⟩, hconsumed, _, _, plain,
    hplain⟩

end Loaded

/-- **A rounding form whose template guards the shifted operand against wrapping is used where the
rounded sum does not wrap, if more than one added term is left of it.** The analysis of the sum is
that of its source node unless terms have cancelled. Of a single added term the guard reads the
analysis of that term, which does not know of the constant. -/
theorem rounded_sum_unwrapped {config : RegistrySettings} {extensions : List Extension}
    {r : Registry} (hload : load config extensions = .ok r) {settings : MatchSettings}
    {t : ExprTree} (ht : t.Assembled) {cand : Candidate}
    (h : (Matcher.new r settings).Returns t cand) {base : Entry} (hbase : base ∈ r.entries)
    (hvariant : r.roundingVariant? base = some cand.instruction.entry) {guards : List Guard}
    {operand amount : Template}
    (htemplate : base.template = some (.dyadic guards .shr operand amount))
    (hguard : .noWrap ∈ operand.guards) :
    ∃ p ∈ t.nodes, p.tag = cand.root ∧ ∃ s so terms k adds, Canon.ShiftsSum p s so terms k adds ∧
      ((∀ c, terms ≠ [(false, c)]) → so.info.overflow = false ∧
        (terms.length = (Chain.ofSum s).terms.length → s.info.overflow = false)) ∧
      ∀ c, terms = [(false, c)] → c.info.overflow = false := by
  obtain ⟨p, hp, htag, s, so, terms, k, adds, hshifts, -, o, amount', plain, hplain⟩ :=
    shiftsSum_of_returns hload ht h ((loaded_of_load hload).mem_roundingPairs.mpr ⟨hbase, hvariant⟩)
  obtain ⟨ms, slots, haligned, -⟩ := (attempt_isSome_iff htemplate).mp (by rw [hplain]; rfl)
  have hover : (stripConstant so terms).info.overflow = false := by
    cases haligned with
    | direct _ ha => simpa [Guard.holds] using ha.guardsHold _ hguard
    | swapped _ hcomm => cases hcomm
  refine ⟨p, hp, htag, s, so, terms, k, adds, hshifts, fun hmore => ?_, ?_⟩
  · have hso : so.info.overflow = false := by
      rcases stripConstant_cases so terms with ⟨c, heq, -⟩ | heq
      · exact absurd heq (hmore c)
      · rw [heq] at hover
        exact hover
    refine ⟨hso, fun hall => ?_⟩
    rw [hshifts.gathered.info_eq, if_pos hall] at hso
    exact hso
  · rintro c rfl
    exact hover

/-- Whether the template is a right shift of what must not wrap, and the form one of a sum that
passes a test. -/
def guardsShiftedSum (test : Origin → List (Bool × Canon) → Bool) (t : Template) (c : Canon) :
    Bool :=
  match t, c with
  | .dyadic _ .shr operand _, .dyadic _ .shr (.sum so terms _ _) _ =>
    operand.guards.contains .noWrap && test so terms
  | _, _ => false

theorem of_guardsShiftedSum {test : Origin → List (Bool × Canon) → Bool} {t : Template} {c : Canon}
    (h : guardsShiftedSum test t c = true) :
    ∃ guards operand amount o so terms k adds amount', t = .dyadic guards .shr operand amount ∧
      .noWrap ∈ operand.guards ∧ c = .dyadic o .shr (.sum so terms k adds) amount' ∧
      test so terms = true := by
  unfold guardsShiftedSum at h
  split at h
  · obtain ⟨hguard, htest⟩ := Bool.and_eq_true_iff.mp h
    exact ⟨_, _, _, _, _, _, _, _, _, rfl, List.contains_iff_mem.mp hguard, rfl, htest⟩
  · cases h

/-- The sum under a rounded accumulation has two terms, and it does not wrap. -/
theorem rounded_sum_unwrapped_accumulate :
    ∃ r t cand s so terms k adds, load {} [Bundled.xcorev] = .ok r ∧
      ExprTree.ofText (.ofList [("a", .u8), ("b", .u8), ("c", .u16)]) "(c + a * b + 4) >> 3" =
        .ok t ∧
      cand ∈ (Matcher.new r {}).matchAt t.root ∧ cand.name = "cv.macurn" ∧
      Canon.ShiftsSum t.root s so terms k adds ∧ terms.length = 2 ∧ so.info.overflow = false := by
  obtain ⟨r, t, cand, base, hload, htext, hcand, hbase, hvariant, htest⟩ :=
    exists_of_run [Bundled.xcorev] (.ofList [("a", .u8), ("b", .u8), ("c", .u16)])
      "(c + a * b + 4) >> 3" (fun _ t cand base => cand.name = "cv.macurn" &&
        base.template.any fun template =>
          guardsShiftedSum (fun _ terms => terms.length = 2) template (Canon.ofExpr t.root))
      (by decide +kernel)
  obtain ⟨hname, hshape⟩ := Bool.and_eq_true_iff.mp htest
  obtain ⟨template, htemplate, hshape⟩ := Option.any_eq_true _ _ |>.mp hshape
  obtain ⟨guards, operand, amount, o, so, terms, k, adds, amount', rfl, hguard, hform, hlength⟩ :=
    of_guardsShiftedSum hshape
  have ht : t.Assembled := .read _ _ htext
  obtain ⟨p, hp, htag, s, so', terms', k', adds', hshifts, hmore, -⟩ := rounded_sum_unwrapped hload
    ht (.matched t.root ht.indexed.root_mem hcand) hbase hvariant htemplate hguard
  rw [(wellFormed_of_mem hload hcand).root] at htag
  obtain rfl := ht.indexed.eq_of_tag hp ht.indexed.root_mem htag
  obtain ⟨o', amount'', heq⟩ := hshifts.form
  cases hform.symm.trans heq
  have hlength := of_decide_eq_true hlength
  refine ⟨r, t, cand, s, _, _, _, _, hload, htext, hcand, of_decide_eq_true hname, hshifts,
    hlength, (hmore fun c hc => ?_).1⟩
  rw [hc] at hlength
  cases hlength

/-- Shifted products, where the product must not wrap, with a rounding form. -/
def shiftedProducts : Extension where
  label := "p"
  title := "Shifted products"
  instructions := [
    { mnemonic := "mulun"
      operands := Bundled.registers 32 false ++ [Bundled.shiftAmount]
      layout := Bundled.shiftForm 0 5
      template := some "(shr:unsigned (mul:nowrap rs1 rs2) is3)" },
    { mnemonic := "mulurn"
      operands := Bundled.registers 32 false ++ [Bundled.shiftAmount]
      layout := Bundled.shiftForm 1 5
      marker := some (.rounding "mulun") }]

/-- The product of two 16-bit numbers does not wrap in 32 bits, but its sum with `2 ^ 18` may. The
guard reads the product alone, so the rounding form is a candidate. -/
theorem rounded_product_wraps :
    ∃ r t cand base guards operand amount o so terms k adds amount',
      load {} [shiftedProducts] = .ok r ∧
      ExprTree.ofText (.ofList [("x", .u16), ("y", .u16)]) "(x * y + 262144) >> 19" = .ok t ∧
      cand ∈ (Matcher.new r {}).matchAt t.root ∧ base ∈ r.entries ∧
      r.roundingVariant? base = some cand.instruction.entry ∧
      base.template = some (.dyadic guards .shr operand amount) ∧ .noWrap ∈ operand.guards ∧
      Canon.ofExpr t.root = .dyadic o .shr (.sum so terms k adds) amount' ∧
      so.info.overflow = true := by
  obtain ⟨r, t, cand, base, hload, htext, hcand, hbase, hvariant, htest⟩ :=
    exists_of_run [shiftedProducts] (.ofList [("x", .u16), ("y", .u16)]) "(x * y + 262144) >> 19"
      (fun _ t _ base => base.template.any fun template =>
        guardsShiftedSum (fun so _ => so.info.overflow) template (Canon.ofExpr t.root))
      (by decide +kernel)
  obtain ⟨template, htemplate, hshape⟩ := Option.any_eq_true _ _ |>.mp htest
  obtain ⟨guards, operand, amount, o, so, terms, k, adds, amount', rfl, hguard, hform, hover⟩ :=
    of_guardsShiftedSum hshape
  exact ⟨r, t, cand, base, guards, operand, amount, o, so, terms, k, adds, amount', hload, htext,
    hcand, hbase, hvariant, htemplate, hguard, hform, hover⟩

/-! ## Nodes that add the constant -/

/-- **A rounding form consumes the additions of the sum that have a constant operand.** Only
additions and subtractions that belong to the chain of the sum are consumed. One of them is consumed
exactly if one of its operands folds to a constant, unless an operand that does so has additions of
the chain itself. -/
theorem consumed_iff_folds {config : RegistrySettings} {extensions : List Extension}
    {r : Registry} (hload : load config extensions = .ok r) {settings : MatchSettings}
    {t : ExprTree} (ht : t.Assembled) {cand : Candidate}
    (h : (Matcher.new r settings).Returns t cand) {base : Entry} (hbase : base ∈ r.entries)
    (hvariant : r.roundingVariant? base = some cand.instruction.entry) :
    ∃ p ∈ t.nodes, p.tag = cand.root ∧ ∃ s so terms k adds, Canon.ShiftsSum p s so terms k adds ∧
      (∀ tag ∈ cand.consumed, ∃ op a b, Chain.Adds s.ty s (.binary tag op a b)) ∧
      ∀ tag op a b, Chain.Adds s.ty s (.binary tag op a b) →
        (∀ x ∈ [a, b], x.Folds → ∀ n, ¬Chain.Adds s.ty x n) →
        (tag ∈ cand.consumed ↔ a.Folds ∨ b.Folds) := by
  obtain ⟨p, hp, htag, s, so, terms, k, adds, hshifts, rfl, -⟩ :=
    shiftsSum_of_returns hload ht h ((loaded_of_load hload).mem_roundingPairs.mpr ⟨hbase, hvariant⟩)
  have hadds := hshifts.gathered.adds_eq
  rw [Chain.ofSum_eq hshifts.gathered.additive] at hadds
  have hnode : ∀ {n}, Chain.Adds s.ty s n → n ∈ t.nodes := fun hn =>
    ht.indexed.mem_of_mem_preorder hp (Expr.mem_preorder_trans hshifts.mem hn.mem_preorder)
  refine ⟨p, hp, htag, s, so, terms, k, cand.consumed, hshifts, fun tag hmem => ?_, ?_⟩
  · rw [hadds, Chain.mem_constAdds_iff] at hmem
    obtain ⟨op, a, b, hmem, -⟩ := hmem
    exact ⟨op, a, b, hmem⟩
  · intro tag op a b hself hplain
    rw [hadds, Chain.mem_constAdds_iff]
    constructor
    · rintro ⟨op', a', b', hother, x, hx, -, hfolds⟩
      -- numbers are apart, so the addition that is listed is this one
      cases ht.indexed.eq_of_tag (hnode hother) (hnode hself) rfl
      rcases List.mem_pair.mp hx with rfl | rfl
      · exact .inl hfolds
      · exact .inr hfolds
    · rintro (hfolds | hfolds)
      · exact ⟨op, a, b, hself, a, by simp, hplain a (by simp) hfolds, hfolds⟩
      · exact ⟨op, a, b, hself, b, by simp, hplain b (by simp) hfolds, hfolds⟩

/-- Where the constant stands first, the inner addition has an operand that folds and is consumed;
its operands have no additions. The outer one is not consumed. -/
theorem consumed_iff_folds_first :
    ∃ r t cand s so terms k adds, load {} [Bundled.xcorev] = .ok r ∧
      ExprTree.ofText (.ofList [("a", .u8), ("b", .u8), ("c", .u16)]) "(4 + c + a * b) >> 3" =
        .ok t ∧
      cand ∈ (Matcher.new r {}).matchAt t.root ∧ cand.name = "cv.macurn" ∧ cand.consumed = [2] ∧
      Canon.ShiftsSum t.root s so terms k adds ∧
      Chain.Adds s.ty s (.binary 2 .add (.const 0 4 .i32) (.var 1 "c" .u16)) ∧
      (2 ∈ cand.consumed ↔ (Expr.const 0 4 .i32).Folds ∨ (Expr.var 1 "c" .u16).Folds) := by
  obtain ⟨r, t, cand, base, hload, htext, hcand, hbase, hvariant, htest⟩ :=
    exists_of_run [Bundled.xcorev] (.ofList [("a", .u8), ("b", .u8), ("c", .u16)])
      "(4 + c + a * b) >> 3"
      (fun _ t cand _ => cand.name = "cv.macurn" && cand.consumed = [2] && t.root = .binary 8 .shr
        (.binary 6 .add (.binary 2 .add (.const 0 4 .i32) (.var 1 "c" .u16))
          (.binary 5 .mul (.var 3 "a" .u8) (.var 4 "b" .u8))) (.const 7 3 .i32))
      (by decide +kernel)
  simp only [Bool.and_eq_true, decide_eq_true_eq] at htest
  obtain ⟨⟨hname, hconsumed⟩, hroot⟩ := htest
  have ht : t.Assembled := .read _ _ htext
  obtain ⟨p, hp, htag, s, so, terms, k, adds, hshifts, honly, hiff⟩ :=
    consumed_iff_folds hload ht (.matched t.root ht.indexed.root_mem hcand) hbase hvariant
  rw [(wellFormed_of_mem hload hcand).root] at htag
  obtain rfl := ht.indexed.eq_of_tag hp ht.indexed.root_mem htag
  obtain ⟨op, a, b, hadds⟩ := honly 2 (by simp [hconsumed])
  -- of the nodes of the tree only the inner addition has this number
  obtain ⟨rfl, rfl, rfl⟩ : op = .add ∧ a = .const 0 4 .i32 ∧ b = .var 1 "c" .u16 := by
    simpa [hroot, Expr.preorder] using Expr.mem_preorder_trans hshifts.mem hadds.mem_preorder
  refine ⟨r, t, cand, s, so, terms, k, adds, hload, htext, hcand, hname, hconsumed, hshifts, hadds,
    hiff 2 _ _ _ hadds fun x hx _ n hn => ?_⟩
  -- a constant or a variable is no addition
  rcases List.mem_pair.mp hx with rfl | rfl
  · rcases hn with _ | ⟨⟨⟩, _⟩
  · rcases hn with _ | ⟨⟨⟩, _⟩

/-- It is not the variables that decide: both operands of an addition have one, and the addition is
consumed, because a difference of equal variables folds to a constant. -/
theorem consumed_blind_to_variables :
    ∃ r t cand base n s k tag op a b, load {} [Bundled.xcorev] = .ok r ∧
      ExprTree.ofText (.ofList [("acc", .u32), ("x", .u16), ("y", .u16), ("z", .u32)])
        "((uint64_t)acc + (uint64_t)x * y + 64 + (z - z)) >> 7" = .ok t ∧
      cand ∈ (Matcher.new r {}).matchAt t.root ∧ base ∈ r.entries ∧
      r.roundingVariant? base = some cand.instruction.entry ∧ t.root = .binary n .shr s k ∧
      Chain.Adds s.ty s (.binary tag op a b) ∧ a.names ≠ [] ∧ b.names ≠ [] ∧
      tag ∈ cand.consumed := by
  obtain ⟨r, t, cand, base, hload, htext, hcand, hbase, hvariant, htest⟩ :=
    exists_of_run [Bundled.xcorev]
      (.ofList [("acc", .u32), ("x", .u16), ("y", .u16), ("z", .u32)])
      "((uint64_t)acc + (uint64_t)x * y + 64 + (z - z)) >> 7"
      (fun _ t cand _ => t.root = .binary 14 .shr (.binary 12 .add (.binary 8 .add
        (.binary 6 .add (.cast 1 .u64 (.var 0 "acc" .u32))
          (.binary 5 .mul (.cast 3 .u64 (.var 2 "x" .u16)) (.var 4 "y" .u16)))
        (.const 7 64 .i32)) (.binary 11 .sub (.var 9 "z" .u32) (.var 10 "z" .u32)))
        (.const 13 7 .i32) && cand.consumed.contains 12) (by decide +kernel)
  obtain ⟨hroot, hconsumed⟩ := Bool.and_eq_true_iff.mp htest
  exact ⟨r, t, cand, base, _, _, _, _, _, _, _, hload, htext, hcand, hbase, hvariant,
    of_decide_eq_true hroot, .self rfl (by decide), by decide, by decide,
    List.contains_iff_mem.mp hconsumed⟩

end Matcher
end CustomIsa
