import CustomIsa.Proofs.Canon.Additions
import CustomIsa.Proofs.Match.Optimal
import CustomIsa.Proofs.Match.WellFormed
/-! # Rounding forms

A right shift by `k` of a sum with constant `2 ^ (k - 1)` rounds. Without the constant, what is left
of the sum is its only term, or a sum that stands for no value of the source (`Match.Unrounds`). The
rounding form of a definition is a candidate at a shift exactly if the template of the definition
aligns with the shift without the constant, and no operand has to be bound to such a sum
(`Matcher.candidates_with_rounding`). -/
namespace CustomIsa

theorem Canon.IsForm.terms_ne_nil {o : Origin} {terms : List (Bool × Canon)} {k : Int}
    {adds : List Nat} (h : (Canon.sum o terms k adds).IsForm) : terms ≠ [] := by
  obtain ⟨e, he⟩ := h
  obtain ⟨s, -, hs⟩ := gathered_ofExpr he
  exact hs.nonempty

namespace Match
variable {limits : Limits} {ops : List Operand} {t : Template} {c d : Canon}
  {ms : List (Operand × Slot)}

/-! ## Shifts that round -/

/-- What is left of a sum of the given terms without its constant: a single added term stands for
itself, and anything else is a sum that is not in the source. -/
inductive Leaves (o : Origin) : List (Bool × Canon) → Canon → Prop where
  | term (c : Canon) : Leaves o [(false, c)] c
  | sum {terms : List (Bool × Canon)} (hmore : ∀ c, terms ≠ [(false, c)]) :
    Leaves o terms (.sum (markSynthetic o) terms 0 [])

/-- A right shift that rounds, and the same shift without the constant of the sum. -/
inductive Unrounds : Canon → Canon → Prop where
  | intro {o so : Origin} {terms : List (Bool × Canon)} {adds : List Nat} {amount operand : Canon}
    (k : Nat) (hpos : 1 ≤ k) (hle : k ≤ 127) (hamount : amount.constant? = some (k : Int))
    (hleaves : Leaves so terms operand) :
    Unrounds (.dyadic o .shr (.sum so terms (2 ^ (k - 1)) adds) amount)
      (.dyadic (markSynthetic o) .shr operand amount)

theorem leaves_iff {o : Origin} {terms : List (Bool × Canon)} :
    Leaves o terms c ↔ c = stripConstant o terms := by
  constructor
  · intro h
    cases h with
    | term => rfl
    | sum hmore =>
      rcases stripConstant_cases o terms with ⟨c, rfl, -⟩ | heq
      · exact absurd rfl (hmore c)
      · exact heq.symm
  · rintro rfl
    unfold stripConstant
    split
    · exact .term _
    · rename_i hmore
      exact .sum hmore

/-- **The search recognizes exactly the shifts that round.** -/
theorem roundingShift_iff (hc : c.IsForm) :
    (∃ shift, roundingShift? c = some shift ∧ shift.stripped = d) ↔ Unrounds c d := by
  constructor
  · rintro ⟨shift, hshift, rfl⟩
    unfold roundingShift? at hshift
    split at hshift
    · rename_i o so terms constant adds amount
      split at hshift
      · rename_i k hamount
        split at hshift
        · rename_i h
          obtain ⟨hpos, hle, -, rfl⟩ := h
          obtain rfl := Option.some.inj hshift
          obtain ⟨n, rfl⟩ := Int.eq_ofNat_of_zero_le (Int.le_trans (by decide) hpos)
          rw [Int.toNat_natCast]
          exact .intro n (by omega) (by omega) hamount (leaves_iff.mpr rfl)
        · cases hshift
      · cases hshift
    · cases hshift
  · intro h
    cases h with
    | @intro o so terms adds amount operand k hpos hle hamount hleaves =>
      have hsum : (Canon.sum so terms (2 ^ (k - 1)) adds).IsForm := by
        refine hc.of_mem (Canon.mem_preorder_of_child ?_ (Canon.mem_preorder_self _))
        simp [Canon.children]
      rw [leaves_iff.mp hleaves]
      unfold roundingShift?
      simp only [hamount]
      rw [if_pos ⟨by omega, by omega, hsum.terms_ne_nil, by rw [Int.toNat_natCast]⟩]
      exact ⟨_, rfl, rfl⟩

/-- What is right below the operand that is left lies in the sum. -/
theorem Leaves.mem_preorder {o : Origin} {terms : List (Bool × Canon)} {a x : Canon}
    (h : Leaves o terms c) (ha : a ∈ c.children) (hx : x ∈ a.preorder) (k : Int) (adds : List Nat) :
    x ∈ (Canon.sum o terms k adds).preorder := by
  cases h with
  | term c =>
    exact Canon.mem_preorder_of_child (d := c) (by simp [Canon.children])
      (Canon.mem_preorder_of_child ha hx)
  | sum => exact Canon.mem_preorder_of_child ha hx

/-- Below the operand that is left and in the amount, all nodes stand for values of the source. -/
theorem Unrounds.real {o : Origin} {operand amount x : Canon}
    (h : Unrounds c (.dyadic o .shr operand amount)) (hc : c.IsForm)
    (hx : (∃ a ∈ operand.children, x ∈ a.preorder) ∨ x ∈ amount.preorder) :
    x.origin.synthetic = false := by
  cases h with
  | @intro o so terms adds _ _ k _ _ _ hleaves =>
    have hmem : x ∈ (Canon.dyadic o .shr (.sum so terms (2 ^ (k - 1)) adds) amount).preorder := by
      rcases hx with ⟨a, ha, hx⟩ | hx
      · have hsum := hleaves.mem_preorder ha hx (2 ^ (k - 1)) adds
        exact Canon.mem_preorder_of_child (by simp [Canon.children]) hsum
      · exact Canon.mem_preorder_of_child (by simp [Canon.children]) hx
    obtain ⟨e, rfl⟩ := hc.of_mem hmem
    exact Canon.real_ofExpr e

/-! ## Alignments with what is left -/

/-- The template has a consistent alignment with the node in which every operand meets nodes that
stand for values of the source. -/
def AlignsReal (limits : Limits) (t : Template) (c : Canon) : Prop :=
  ∃ ms, Aligned limits t c ms ∧ Consistent limits ms ∧
    ∀ op x, (op, .node x) ∈ ms → x.origin.synthetic = false

/-- Only a template that is a register meets the topmost node of a form. -/
theorem Aligned.met_below (h : Aligned limits t c ms) (hreads : t.Reads ops) :
    (∃ guards op, t = .register guards op ∧ ms = [(op, .node c)]) ∨
      ∀ op x, (op, .node x) ∈ ms → ∃ a ∈ c.children, x ∈ a.preorder := by
  have hnode : ∀ {a op x}, Placed ops a (op, .node x) → x ∈ a.preorder := by
    intro a op x hplaced
    cases hplaced with
    | node _ _ hx => exact hx
  cases h with
  | register => exact .inl ⟨_, _, rfl, rfl⟩
  | immediate | const => exact .inr (by simp)
  | monadic _ ha =>
    rw [Template.Reads] at hreads
    exact .inr fun op x hx => ⟨_, by simp [Canon.children], hnode (ha.placed hreads _ hx)⟩
  | direct _ ha hb | swapped _ _ ha hb =>
    rw [Template.Reads] at hreads
    refine .inr fun op x hx => ?_
    rcases List.mem_append.mp hx with hx | hx
    · exact ⟨_, by simp [Canon.children], hnode (ha.placed hreads.1 _ hx)⟩
    · exact ⟨_, by simp [Canon.children], hnode (hb.placed hreads.2 _ hx)⟩
  | sum _ _ hpaired hconst hterms =>
    rw [Template.Reads] at hreads
    refine .inr fun op x hx => ?_
    rcases List.mem_append.mp hx with hx | hx
    · cases hconst with
      | equal => cases hx
      | absorbed => simp at hx
    · obtain ⟨a, ha, hplaced⟩ := hterms.placed hreads.1 _ hx
      exact ⟨a.2, List.mem_map_of_mem (hpaired.subset ha), hnode hplaced⟩

/-- A register that is met first can be bound only to a node of the source. -/
theorem real_of_first {op : Operand} {x : Canon} {slots : List (String × Slot)}
    (hmeet : meetAll limits [] ((op, .node x) :: ms) = some slots)
    (hbound : ∀ slot, slots.lookup op.name = some slot → (boundOf? slot).isSome = true) :
    x.origin.synthetic = false := by
  have hfirst : slots.lookup op.name = some (.node x) := by
    rw [lookup_meetAll hmeet, List.lookup_nil, Option.none_or]
    simp
  simpa [boundOf?] using hbound _ hfirst

/-- **An attempt at a shift without its rounding constant succeeds exactly if no operand meets a sum
that is not in the source.** Only the operand of the shift itself could meet one, and it would meet
it first. -/
theorem attempt_unrounded_iff {e : Entry} (h : Unrounds c d) (hc : c.IsForm)
    (hvalid : e.definition.Valid) (ht : e.template = some t) (hcompiled : Compiled e t) :
    (attempt limits e d).isSome = true ↔ AlignsReal limits t d := by
  have hreads : t.Reads e.definition.operands :=
    hcompiled.reads.mono fun op hop => (List.mem_filter.mp hop).1
  rw [attempt_isSome_iff ht]
  constructor
  · rintro ⟨ms, slots, haligned, hmeet, hbound⟩
    have hplaced := haligned.placed hreads
    refine ⟨ms, haligned, (meetAll_iff_consistent hvalid.distinct hplaced).mp ⟨slots, hmeet⟩, ?_⟩
    have hshape := h
    cases hshape with
    | intro =>
      intro op x hx
      cases haligned with
      | register | immediate | const => cases hcompiled.operator
      | swapped _ hcomm => cases hcomm
      | direct _ ha hb =>
        rw [Template.Reads] at hreads
        rcases List.mem_append.mp hx with hx | hx
        · rcases ha.met_below hreads.1 with ⟨guards, op', rfl, rfl⟩ | hbelow
          · obtain ⟨rfl, heq⟩ := Prod.mk.inj (List.mem_singleton.mp hx)
            obtain rfl := Slot.node.inj heq
            rw [Template.Reads] at hreads
            exact real_of_first hmeet (hbound op hreads.1.1)
          · exact h.real hc (.inl (hbelow op x hx))
        · cases hb.placed hreads.2 _ hx with
          | node _ _ hd => exact h.real hc (.inr hd)
  · rintro ⟨ms, haligned, hconsistent, hreal⟩
    have hplaced := haligned.placed hreads
    obtain ⟨slots, hmeet⟩ := (meetAll_iff_consistent hvalid.distinct hplaced).mpr hconsistent
    refine ⟨ms, slots, haligned, hmeet, fun op _ slot hslot => ?_⟩
    obtain ⟨op', -, hmet⟩ := met_of_lookup hmeet hslot
    cases slot with
    | node x => simp [boundOf?, hreal op' x hmet]
    | imm v => simp [boundOf?, Operand.inInt64_of_inRange (hconsistent.inRange op' v hmet)]

end Match

/-! ## Candidates for rounding forms -/

namespace Matcher
open Match Registry

section Loaded
variable {config : RegistrySettings} {extensions : List Extension} {r : Registry}
  (hload : load config extensions = .ok r)
include hload

/-- A definition has a candidate for its rounding form exactly at the rounding shifts without whose
constant it has a candidate itself. -/
theorem exists_roundingCandidate_iff {limits : Limits} {c : Canon} {base variant : Entry}
    (hpair : (base, variant) ∈ r.roundingPairs) :
    (∃ cand ∈ roundingCandidates limits r c, cand.instruction.entry = variant) ↔
      ∃ shift, roundingShift? c = some shift ∧
        (attempt limits base shift.stripped).isSome = true := by
  constructor
  · rintro ⟨cand, hcand, rfl⟩
    obtain ⟨shift, hshift, base', variant', hpair', hround⟩ := mem_roundingCandidates.mp hcand
    obtain ⟨plain, hplain, rfl⟩ := Option.map_eq_some_iff.mp hround
    obtain rfl := (loaded_of_load hload).base_eq hpair hpair'
    exact ⟨shift, hshift, by rw [hplain]; rfl⟩
  · rintro ⟨shift, hshift, hsome⟩
    obtain ⟨plain, hplain⟩ := Option.isSome_iff_exists.mp hsome
    obtain ⟨cand, hround, hentry⟩ : ∃ cand, attemptRounding limits shift base variant = some cand ∧
        cand.instruction.entry = variant := by
      rw [attemptRounding, hplain]
      exact ⟨_, rfl, rfl⟩
    exact ⟨cand, mem_roundingCandidates.mpr ⟨shift, hshift, base, variant, hpair, hround⟩, hentry⟩

/-- No attempt gives a candidate for a rounding form, which has no template. -/
theorem not_variant_of_attempt {limits : Limits} {e base : Entry} {c : Canon} {cand : Candidate}
    (h : attempt limits e c = some cand) :
    (base, cand.instruction.entry) ∉ r.roundingPairs := by
  intro hpair
  obtain ⟨hbase, hvariant, hname⟩ := (loaded_of_load hload).mem_roundingPairs_iff.mp hpair
  obtain ⟨-, hnone, -⟩ := rounds_of_load hload hbase hvariant hname
  obtain ⟨t, ht, -⟩ := Option.bind_eq_some_iff.mp h
  rw [entry_of_attempt h] at hnone
  cases hnone.symm.trans ht

/-- A candidate for a rounding form stems from an attempt at a rounding shift without its
constant. -/
theorem rounding_of_mem {settings : MatchSettings} {c : Canon} {cand : Candidate} {base : Entry}
    (hpair : (base, cand.instruction.entry) ∈ r.roundingPairs)
    (h : cand ∈ (Matcher.new r settings).candidates c) :
    ∃ shift plain, roundingShift? c = some shift ∧
      attempt (Matcher.new r settings).limits base shift.stripped = some plain ∧
      cand.consumed = shift.consumed := by
  rcases mem_candidates_iff.mp h with ⟨e, he, hattempt⟩ | ⟨-, shift, hshift, base', variant, hpair',
    hround⟩
  · exact absurd hpair (not_variant_of_attempt hload hattempt)
  · obtain ⟨plain, hplain, rfl⟩ := Option.map_eq_some_iff.mp hround
    obtain rfl := (loaded_of_load hload).base_eq hpair hpair'
    exact ⟨shift, plain, hshift, hplain, rfl⟩

end Loaded

/-- A run that finds a rounding form at the root of a tree and passes a test, taken apart. -/
theorem exists_of_run (extensions : List Extension) (vars : Typing) (text : String)
    (test : Registry → ExprTree → Candidate → Entry → Bool)
    (hrun : (load {} extensions).toOption.any (fun r => (ExprTree.ofText vars text).toOption.any
      fun t => ((Matcher.new r {}).matchAt t.root).any fun cand => r.entries.any fun base =>
        ((r.roundingVariant? base).any fun e => e.name = cand.name) && test r t cand base) = true) :
    ∃ r t cand base, load {} extensions = .ok r ∧ ExprTree.ofText vars text = .ok t ∧
      cand ∈ (Matcher.new r {}).matchAt t.root ∧ base ∈ r.entries ∧
      r.roundingVariant? base = some cand.instruction.entry ∧ test r t cand base = true := by
  obtain ⟨r, hload, hany⟩ := Option.any_eq_true _ _ |>.mp hrun
  obtain ⟨t, htext, hany⟩ := Option.any_eq_true _ _ |>.mp hany
  obtain ⟨cand, hcand, hany⟩ := List.any_eq_true.mp hany
  obtain ⟨base, hbase, hcase⟩ := List.any_eq_true.mp hany
  obtain ⟨hsame, htest⟩ := Bool.and_eq_true_iff.mp hcase
  obtain ⟨variant, hvariant, hname⟩ := Option.any_eq_true _ _ |>.mp hsame
  have hload := eq_ok_of_toOption hload
  have hr := loaded_of_load hload
  -- names are apart, so the candidate is for the rounding form of this name
  have hentry : variant = cand.instruction.entry :=
    List.inj_on_of_nodup_map hr.wellFormed.named
      (hr.roundingVariant?_eq_some_iff.mp hvariant).1 (footprint_of_mem hload ⟨t.root, rfl⟩ hcand).1
      (of_decide_eq_true hname)
  exact ⟨r, t, cand, base, hload, eq_ok_of_toOption htext, hcand, hbase, hentry ▸ hvariant, htest⟩

/-- What looking for rounding forms adds to the candidates at a node: for each definition with a
rounding form at most one candidate for that form, exactly if the node is a right shift that rounds
and the template of the definition aligns with it without the rounding constant. A sum with another
constant adds nothing. -/
structure AddsRounding (r : Registry) (limits : Limits) (c : Canon) (added : List Candidate) :
    Prop where
  variants : ∀ cand ∈ added, ∃ base ∈ r.entries,
    r.roundingVariant? base = some cand.instruction.entry
  once : (added.map Candidate.name).Nodup
  exactly : ∀ base ∈ r.entries, ∀ variant, r.roundingVariant? base = some variant →
    ((∃ cand ∈ added, cand.instruction.entry = variant) ↔
      ∃ t d, base.template = some t ∧ Unrounds c d ∧ AlignsReal limits t d)
  half : ∀ o so terms constant adds amount (k : Int),
    c = .dyadic o .shr (.sum so terms constant adds) amount → amount.constant? = some k →
      constant ≠ 2 ^ (k - 1).toNat → added = []

theorem addsRounding_roundingCandidates {config : RegistrySettings} {extensions : List Extension}
    {r : Registry} (hload : load config extensions = .ok r) (limits : Limits) {c : Canon}
    (hc : c.IsForm) : AddsRounding r limits c (roundingCandidates limits r c) := by
  have hr := loaded_of_load hload
  refine ⟨fun cand hcand => ?_, nodup_names_roundingCandidates hload limits c, ?_, ?_⟩
  · obtain ⟨shift, -, base, variant, hpair, hround⟩ := mem_roundingCandidates.mp hcand
    obtain ⟨plain, -, rfl⟩ := Option.map_eq_some_iff.mp hround
    exact ⟨base, hr.mem_roundingPairs.mp hpair⟩
  · intro base hbase variant hvariant
    have hpair := hr.mem_roundingPairs.mpr ⟨hbase, hvariant⟩
    obtain ⟨hmem, hname⟩ := hr.roundingVariant?_eq_some_iff.mp hvariant
    obtain ⟨t, ht⟩ := Option.isSome_iff_exists.mp (rounds_of_load hload hbase hmem hname).1
    have hiff : ∀ {d}, Unrounds c d → ((attempt limits base d).isSome = true ↔
        AlignsReal limits t d) := fun h => attempt_unrounded_iff h hc
      (hr.valid hbase) ht (compiled_of_load hload hbase ht)
    rw [exists_roundingCandidate_iff hload hpair]
    constructor
    · rintro ⟨shift, hshift, hsome⟩
      have hunrounds := (roundingShift_iff hc).mp ⟨shift, hshift, rfl⟩
      exact ⟨t, _, ht, hunrounds, (hiff hunrounds).mp hsome⟩
    · rintro ⟨t', d, ht', hunrounds, haligns⟩
      obtain rfl := Option.some.inj (ht.symm.trans ht')
      obtain ⟨shift, hshift, rfl⟩ := (roundingShift_iff hc).mpr hunrounds
      exact ⟨shift, hshift, (hiff hunrounds).mpr haligns⟩
  · rintro o so terms constant adds amount k rfl hk hne
    have hnone : roundingShift? (.dyadic o .shr (.sum so terms constant adds) amount) = none := by
      cases hshift : roundingShift? (.dyadic o .shr (.sum so terms constant adds) amount) with
      | none => rfl
      | some shift =>
        obtain ⟨d, hd⟩ : ∃ d, Unrounds (.dyadic o .shr (.sum so terms constant adds) amount) d :=
          ⟨_, (roundingShift_iff hc).mp ⟨shift, hshift, rfl⟩⟩
        cases hd with
        | intro n hpos _ hamount =>
          obtain rfl := Option.some.inj (hamount.symm.trans hk)
          refine absurd ?_ hne
          congr 1
          omega
    rw [roundingCandidates, hnone]

/-- **Looking for rounding forms adds exactly the candidates for them.** At every node of a
canonical form, with any settings, the candidates with rounding forms are those without, and in
addition those that `AddsRounding` describes; without, no candidate is for the rounding form of a
definition. -/
theorem candidates_with_rounding {config : RegistrySettings} {extensions : List Extension}
    {r : Registry} (hload : load config extensions = .ok r) (settings : MatchSettings)
    {p : Expr Nat} {c : Canon} (hc : c ∈ (Canon.ofExpr p).preorder) :
    (∃ added, ((Matcher.new r { settings with roundingDetection := true }).candidates c).Perm
        ((Matcher.new r { settings with roundingDetection := false }).candidates c ++ added) ∧
      AddsRounding r ⟨r.xlen, min settings.maxSumTerms 64, Nat.min_le_right ..⟩ c added) ∧
    ∀ cand ∈ (Matcher.new r { settings with roundingDetection := false }).candidates c,
      ∀ base ∈ r.entries, r.roundingVariant? base ≠ some cand.instruction.entry := by
  have hform : c.IsForm := Canon.IsForm.of_mem ⟨p, rfl⟩ hc
  refine ⟨⟨roundingCandidates (Matcher.new r settings).limits r c, ?_,
    addsRounding_roundingCandidates hload _ hform⟩, ?_⟩
  · have hplain := @unranked_of_plain _ _ r hload { settings with roundingDetection := false } rfl c
    have hoff := Sorting.sort_perm (fun a b : Candidate => b.score.le a.score)
      ((Matcher.new r { settings with roundingDetection := false }).unranked c)
    refine (Sorting.sort_perm _ _).trans ((hoff.append_right _).trans ?_).symm
    rw [hplain, unranked_eq (m := Matcher.new r { settings with roundingDetection := true })
      (loaded_of_load hload)]
    exact .refl _
  · intro cand hcand base hbase hvariant
    rw [mem_candidates, unranked_of_plain hload rfl] at hcand
    obtain ⟨e, -, hattempt⟩ := List.mem_filterMap.mp hcand
    exact not_variant_of_attempt hload hattempt 
      ((loaded_of_load hload).mem_roundingPairs.mpr ⟨hbase, hvariant⟩)

/-- The rounding form of an accumulation is what is added at a sum of a product with four, shifted
by three. -/
theorem candidates_with_rounding_accumulate :
    ∃ r tree added cand, load {} [Bundled.xcorev] = .ok r ∧
      ExprTree.ofText (.ofList [("a", .u8), ("b", .u8), ("c", .u16)]) "(c + a * b + 4) >> 3" =
        .ok tree ∧
      ((Matcher.new r { roundingDetection := true }).candidates (Canon.ofExpr tree.root)).Perm
        ((Matcher.new r { roundingDetection := false }).candidates (Canon.ofExpr tree.root) ++
          added) ∧
      AddsRounding r ⟨r.xlen, 8, by decide⟩ (Canon.ofExpr tree.root) added ∧
      cand ∈ added ∧ cand.name = "cv.macurn" := by
  obtain ⟨r, tree, cand, base, hload, htext, hcand, hbase, hvariant, hname⟩ :=
    exists_of_run [Bundled.xcorev] (.ofList [("a", .u8), ("b", .u8), ("c", .u16)])
      "(c + a * b + 4) >> 3" (fun _ _ cand _ => cand.name = "cv.macurn") (by decide +kernel)
  obtain ⟨⟨added, hperm, hadds⟩, hoff⟩ :=
    candidates_with_rounding hload {} (Canon.mem_preorder_self (Canon.ofExpr tree.root))
  refine ⟨r, tree, added, cand, hload, htext, hperm, hadds, ?_, of_decide_eq_true hname⟩
  refine (List.mem_append.mp (hperm.subset hcand)).resolve_left fun hmem => ?_
  exact hoff cand hmem base hbase hvariant

end Matcher
end CustomIsa
