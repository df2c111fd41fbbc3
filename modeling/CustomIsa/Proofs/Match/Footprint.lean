import CustomIsa.Proofs.Canon.Absorbed
import CustomIsa.Proofs.Match.Candidate
/-! # What an alignment uses of a form

The search for alignments replaces nodes and lets operands meet nodes. Every node of the form serves
once at most: the numbers of the source nodes that went into the replaced nodes and into what the
operands have met are, counted together, no more than those of the form (`Match.follows_align`).

A candidate stems from the state of one alignment (`Match.Stems`). Its operands are bound to what
they have met in that state, registers to nodes of the form and immediates to constants in their
range, and since a template uses all inputs, all of them are bound. -/
namespace CustomIsa

namespace Canon

theorem absorbedOfTerms_eq (terms : List (Bool × Canon)) :
    absorbedOfTerms terms = (terms.map Prod.snd).flatMap allAbsorbed := by
  induction terms with
  | nil => rfl
  | cons t terms ih => rw [absorbedOfTerms, ih, List.map_cons, List.flatMap_cons]

/-- What went into a form went into its topmost node or into those right below. -/
theorem allAbsorbed_eq (c : Canon) :
    c.allAbsorbed = c.origin.absorbed ++ c.children.flatMap allAbsorbed := by
  cases c <;> simp [allAbsorbed, origin, Canon.children, absorbedOfTerms_eq]

theorem allAbsorbed_subset {c d : Canon} (hd : d ∈ c.preorder) : d.allAbsorbed ⊆ c.allAbsorbed := by
  intro n hn
  rw [allAbsorbed_eq_flatMap] at hn ⊢
  obtain ⟨x, hx, hn⟩ := List.mem_flatMap.mp hn
  exact List.mem_flatMap.mpr ⟨x, mem_preorder_trans hd hx, hn⟩

theorem IsForm.listed {c : Canon} (h : c.IsForm) : c.Listed := by
  obtain ⟨p, rfl⟩ := h
  exact listed_ofExpr p

/-- A form lists the number of its source among those that went into it. -/
theorem IsForm.source_mem {c : Canon} (h : c.IsForm) : c.source ∈ c.allAbsorbed := by
  rw [allAbsorbed_eq]
  exact List.mem_append_left _ h.listed.source

end Canon

namespace Match
variable {limits : Limits}

/-! ## Steps of the search -/

/-- The numbers of the source nodes that went into what an operand has met. -/
def Slot.numbers : Slot → List Nat
  | .node c => c.allAbsorbed
  | .imm _ => []

/-- The numbers of the source nodes that a state uses: those replaced, and those below the nodes
that operands have met. -/
def State.used (s : State) : List Nat := s.absorbed ++ s.slots.flatMap (·.2.numbers)

/-- A state that follows another keeps what was replaced, and uses at most the given numbers in
addition. -/
structure Follows (region : List Nat) (s s' : State) : Prop where
  kept : s.absorbed ⊆ s'.absorbed
  used : ∀ n, s'.used.count n ≤ s.used.count n + region.count n

theorem Follows.trans {region region' : List Nat} {s s' s'' : State} (h : Follows region s s')
    (h' : Follows region' s' s'') : Follows (region ++ region') s s'' := by
  refine ⟨fun n hn => h'.kept (h.kept hn), fun n => ?_⟩
  have hfirst := h.used n
  have hsecond := h'.used n
  rw [List.count_append]
  omega

theorem Follows.mono {region region' : List Nat} {s s' : State} (h : Follows region s s')
    (hle : ∀ n, region.count n ≤ region'.count n) : Follows region' s s' :=
  ⟨h.kept, fun n => Nat.le_trans (h.used n) (Nat.add_le_add_left (hle n) _)⟩

theorem follows_absorb (s : State) (c : Canon) : Follows c.origin.absorbed s (s.absorb c) := by
  refine ⟨fun n hn => List.mem_append_left _ hn, fun n => ?_⟩
  simp only [State.used, State.absorb, List.count_append]
  omega

theorem follows_bind (s : State) (op : Operand) (slot : Slot) :
    Follows slot.numbers s (s.bind op slot) := by
  refine ⟨fun n hn => hn, fun n => ?_⟩
  simp only [State.used, State.bind, List.flatMap_cons, List.count_append]
  omega

theorem follows_refl (region : List Nat) (s : State) : Follows region s s :=
  ⟨fun _ hn => hn, fun _ => Nat.le_add_right _ _⟩

theorem follows_meetGuards {guards : List Guard} {c : Canon} {s s' : State}
    (h : meetGuards limits guards c s = some s') : Follows [] s s' := by
  unfold meetGuards at h
  split at h
  · obtain rfl := Option.some.inj h
    exact ⟨fun _ hn => hn, fun _ => Nat.le_refl _⟩
  · cases h

/-- A register that meets a node has met the like before, or is bound to it now. -/
theorem meetRegister_cases {op : Operand} {c : Canon} {s s' : State}
    (h : meetRegister limits op c s = some s') : s' = s ∨ s' = s.bind op (.node c) := by
  unfold meetRegister State.meetNode? at h
  split at h
  · split at h
    · exact .inr (Option.some.inj h).symm
    · split at h
      · exact .inl (Option.some.inj h).symm
      · cases h
    · cases h
  · cases h

theorem meetImmediate_cases {op : Operand} {v : Int} {s s' : State}
    (h : meetImmediate op v s = some s') : s' = s ∨ s' = s.bind op (.imm v) := by
  unfold meetImmediate State.meetImm? at h
  split at h
  · split at h
    · exact .inr (Option.some.inj h).symm
    · split at h
      · exact .inl (Option.some.inj h).symm
      · cases h
    · cases h
  · cases h

theorem meetConstant_cases {constant met : Int} {absorber : Option Operand} {s s' : State}
    (h : meetConstant constant absorber met s = some s') :
    s' = s ∨ ∃ op v, s' = s.bind op (.imm v) := by
  unfold meetConstant at h
  split at h
  · split at h
    · exact .inl (Option.some.inj h).symm
    · cases h
  · split at h
    · cases h
    · exact (meetImmediate_cases h).imp_right fun heq => ⟨_, _, heq⟩

theorem follows_meetRegister {op : Operand} {c : Canon} {s s' : State}
    (h : meetRegister limits op c s = some s') : Follows c.allAbsorbed s s' := by
  obtain rfl | rfl := meetRegister_cases h
  · exact follows_refl _ _
  · exact follows_bind s op (.node c)

theorem follows_meetImmediate {op : Operand} {v : Int} {s s' : State}
    (h : meetImmediate op v s = some s') : Follows [] s s' := by
  obtain rfl | rfl := meetImmediate_cases h
  · exact follows_refl _ _
  · exact follows_bind s op (.imm v)

theorem follows_meetConstant {constant met : Int} {absorber : Option Operand} {s s' : State}
    (h : meetConstant constant absorber met s = some s') : Follows [] s s' := by
  obtain rfl | ⟨op, v, rfl⟩ := meetConstant_cases h
  · exact follows_refl _ _
  · exact follows_bind s op (.imm v)

/-! ## The parts of a template -/

section Parts
variable {guards : List Guard} {c : Canon} {s s' : State}

theorem mem_align_register {op : Operand} (h : s' ∈ align limits (.register guards op) c s) :
    ∃ next, meetGuards limits guards c s = some next ∧ meetRegister limits op c next = some s' := by
  rw [align_register] at h
  cases hguards : meetGuards limits guards c s with
  | none => simp [hguards] at h
  | some next =>
    rw [hguards, Option.elim_some, Option.mem_toList] at h
    exact ⟨next, rfl, h⟩

/-- An immediate is met by a constant, which is then absorbed. -/
theorem mem_align_immediate {op : Operand} (h : s' ∈ align limits (.immediate guards op) c s) :
    ∃ next v mid, meetGuards limits guards c s = some next ∧ c.constant? = some v ∧
      meetImmediate op v next = some mid ∧ s' = mid.absorb c := by
  rw [align] at h
  split at h
  · rename_i next v hguards hc
    rw [Option.mem_toList, Option.map_eq_some_iff] at h
    obtain ⟨mid, hmid, rfl⟩ := h
    exact ⟨next, v, mid, hguards, hc, hmid, rfl⟩
  · cases h

theorem mem_align_const {value : Int} (h : s' ∈ align limits (.const guards value) c s) :
    ∃ next, meetGuards limits guards c s = some next ∧ c.constant? = some value ∧
      s' = next.absorb c := by
  rw [align] at h
  split at h
  · rename_i next v hguards hc
    split at h
    · rename_i hv
      subst hv
      exact ⟨next, hguards, hc, List.mem_singleton.mp h⟩
    · cases h
  · cases h

/-- A template with one operand aligns with a node of that operator, whose operand it then aligns
with. -/
theorem mem_align_monadic {op : MonadicOp} {t : Template}
    (h : s' ∈ align limits (.monadic guards op t) c s) :
    ∃ o a next, c = .monadic o op a ∧ meetGuards limits guards c s = some next ∧
      s' ∈ align limits t a (next.absorb c) := by
  cases c with
  | var | const | dyadic | select | sum => simp [align] at h
  | monadic o op' a =>
    rw [align_monadic] at h
    cases hguards : meetGuards limits guards (.monadic o op' a) s with
    | none => simp [hguards] at h
    | some next =>
      rw [hguards, Option.elim_some] at h
      split at h
      · rename_i hop
        subst hop
        exact ⟨o, a, next, rfl, rfl, h⟩
      · cases h

/-- A template with two operands aligns with a node of that operator, whose operands it then aligns
with in one order. -/
theorem mem_align_dyadic {op : DyadicOp} {t u : Template}
    (h : s' ∈ align limits (.dyadic guards op t u) c s) :
    ∃ o a b next, c = .dyadic o op a b ∧ meetGuards limits guards c s = some next ∧
      ∃ x y mid, (x = a ∧ y = b ∨ x = b ∧ y = a) ∧ mid ∈ align limits t x (next.absorb c) ∧
        s' ∈ align limits u y mid := by
  cases c with
  | var | const | monadic | select | sum => simp [align] at h
  | dyadic o op' a b =>
    rw [align_dyadic] at h
    cases hguards : meetGuards limits guards (.dyadic o op' a b) s with
    | none => simp [hguards] at h
    | some next =>
      rw [hguards, Option.elim_some] at h
      split at h
      · rename_i hop
        subst hop
        refine ⟨o, a, b, next, rfl, rfl, ?_⟩
        simp only at h
        split at h
        · rcases List.mem_append.mp h with h | h
          · obtain ⟨mid, hmid, h⟩ := List.mem_flatMap.mp h
            exact ⟨a, b, mid, .inl ⟨rfl, rfl⟩, hmid, h⟩
          · obtain ⟨mid, hmid, h⟩ := List.mem_flatMap.mp h
            exact ⟨b, a, mid, .inr ⟨rfl, rfl⟩, hmid, h⟩
        · obtain ⟨mid, hmid, h⟩ := List.mem_flatMap.mp h
          exact ⟨a, b, mid, .inl ⟨rfl, rfl⟩, hmid, h⟩
      · cases h

/-- The template of a sum aligns with a sum, whose terms it then aligns with. -/
theorem mem_align_sum {terms : List (Bool × Template)} {constant : Int} {absorber : Option Operand}
    (h : s' ∈ align limits (.sum guards terms constant absorber) c s) :
    ∃ o met metConstant adds next mid, c = .sum o met metConstant adds ∧
      meetGuards limits guards c s = some next ∧
      meetConstant constant absorber metConstant next = some mid ∧ met.length ≤ 64 ∧
      s' ∈ alignTerms limits terms met 0 (mid.absorb c) := by
  cases c with
  | var | const | monadic | dyadic | select => simp [align] at h
  | sum o met metConstant adds =>
    rw [align_sum] at h
    cases hguards : meetGuards limits guards (.sum o met metConstant adds) s with
    | none => simp [hguards] at h
    | some next =>
      rw [hguards, Option.elim_some] at h
      split at h
      · rename_i hlen
        obtain ⟨mid, hmid, h⟩ := List.mem_flatMap.mp h
        exact ⟨o, met, metConstant, adds, next, mid, rfl, rfl, by simpa using hmid,
          Nat.le_trans hlen.2 limits.capped, h⟩
      · cases h

/-- The first term of a template aligns with one that is not used up, and the others without it. -/
theorem mem_alignTerms_cons {negated : Bool} {t : Template} {ts : List (Bool × Template)}
    {met : List (Bool × Canon)} {used : Used}
    (h : s' ∈ alignTerms limits ((negated, t) :: ts) met used s) :
    ∃ c position mid, ((negated, c), position) ∈ met.zipIdx ∧ used.has position = false ∧
      mid ∈ align limits t c s ∧ s' ∈ alignTerms limits ts met (used.add position) mid := by
  rw [alignTerms, List.mem_flatMap] at h
  obtain ⟨⟨⟨sign, c⟩, position⟩, hmet, h⟩ := h
  simp only at h
  split at h
  · cases h
  · rename_i hopen
    obtain ⟨hfree, hsign⟩ := not_or.mp hopen
    obtain rfl := not_not.mp hsign
    obtain ⟨mid, hmid, h⟩ := List.mem_flatMap.mp h
    exact ⟨c, position, mid, hmet, Bool.eq_false_iff.mpr hfree, hmid, h⟩

end Parts

mutual

/-- **Every node of a form serves an alignment once at most.** -/
theorem follows_align (limits : Limits) : (t : Template) → ∀ {c : Canon} {s s' : State},
    s' ∈ align limits t c s → Follows c.allAbsorbed s s'
  | .register guards op, c, s, s', h => by
    obtain ⟨next, hguards, h⟩ := mem_align_register h
    exact (follows_meetGuards hguards).trans (follows_meetRegister h)
  | .immediate guards op, c, s, s', h => by
    obtain ⟨next, v, mid, hguards, hc, hmid, rfl⟩ := mem_align_immediate h
    rw [Canon.allAbsorbed_of_constant (c := c) (by rw [hc]; rfl)]
    exact (follows_meetGuards hguards).trans
      ((follows_meetImmediate hmid).trans (follows_absorb mid c))
  | .const guards value, c, s, s', h => by
    obtain ⟨next, hguards, hc, rfl⟩ := mem_align_const h
    rw [Canon.allAbsorbed_of_constant (c := c) (by rw [hc]; rfl)]
    exact (follows_meetGuards hguards).trans (follows_absorb next c)
  | .monadic guards op t, c, s, s', h => by
    obtain ⟨o, a, next, rfl, hguards, h⟩ := mem_align_monadic h
    exact (follows_meetGuards hguards).trans
      ((follows_absorb next _).trans (follows_align limits t h))
  | .dyadic guards op t u, c, s, s', h => by
    obtain ⟨o, a, b, next, rfl, hguards, x, y, mid, hxy, hmid, h⟩ := mem_align_dyadic h
    have hfollows := (follows_meetGuards hguards).trans ((follows_absorb next _).trans
      ((follows_align limits t hmid).trans (follows_align limits u h)))
    refine hfollows.mono fun n => ?_
    -- the order of the operands does not matter for the count
    rcases hxy with ⟨rfl, rfl⟩ | ⟨rfl, rfl⟩ <;>
      simp only [Canon.allAbsorbed, Canon.origin, List.count_append, List.count_nil] <;> omega
  | .sum guards terms constant absorber, c, s, s', h => by
    obtain ⟨o, met, metConstant, adds, next, mid, rfl, hguards, hmid, hlen, h⟩ := mem_align_sum h
    have hterms := follows_alignTerms limits terms hlen h
    rw [Used.free_zero] at hterms
    exact (follows_meetGuards hguards).trans ((follows_meetConstant hmid).trans
      ((follows_absorb mid _).trans hterms))

theorem follows_alignTerms (limits : Limits) : (ts : List (Bool × Template)) →
    ∀ {met : List (Bool × Canon)} {used : Used} {s s' : State}, met.length ≤ 64 →
      s' ∈ alignTerms limits ts met used s →
      Follows (Canon.absorbedOfTerms (used.free 0 met)) s s'
  | [], met, used, s, s', _, h => by
    rw [alignTerms] at h
    obtain rfl := List.mem_singleton.mp h
    exact follows_refl _ _
  | (negated, t) :: ts, met, used, s, s', hlen, h => by
    obtain ⟨c, position, mid, hmet, hfree, hmid, h⟩ := mem_alignTerms_cons h
    have hfollows := (follows_align limits t hmid).trans (follows_alignTerms limits ts hlen h)
    have hperm := Chain.absorbedOfTerms_perm
      ((Used.cons_perm_free_iff hlen).mpr ⟨position, hmet, hfree, .refl _⟩)
    exact hfollows.mono fun n => Nat.le_of_eq (hperm.count_eq n)

end

/-- The template of an operator replaces the node that it aligns with. -/
theorem absorbed_of_operator {t : Template} (ht : t.isOperator = true) {c : Canon} {s s' : State}
    (h : s' ∈ align limits t c s) : c.origin.absorbed ⊆ s'.absorbed := by
  have hself : ∀ next : State, c.origin.absorbed ⊆ (next.absorb c).absorbed :=
    fun next n hn => List.mem_append_right _ hn
  cases t with
  | register | immediate | const => cases ht
  | monadic guards op t =>
    obtain ⟨o, a, next, -, -, h⟩ := mem_align_monadic h
    exact fun n hn => (follows_align limits t h).kept (hself next hn)
  | dyadic guards op t u =>
    obtain ⟨o, a, b, next, -, -, x, y, mid, -, hmid, h⟩ := mem_align_dyadic h
    exact fun n hn => (follows_align limits u h).kept ((follows_align limits t hmid).kept
      (hself next hn))
  | sum guards terms constant absorber =>
    obtain ⟨o, met, metConstant, adds, next, mid, -, -, -, hlen, h⟩ := mem_align_sum h
    exact fun n hn => (follows_alignTerms limits terms hlen h).kept (hself mid hn)

/-! ## Operands -/

mutual

/-- Every operand of a template meets something in an alignment. -/
theorem Aligned.meets : ∀ {t : Template} {c : Canon} {ms : List (Operand × Slot)},
    Aligned limits t c ms → ∀ op ∈ t.operands, ∃ slot, (op, slot) ∈ ms
  | _, _, _, .register _ => by simp [Template.operands]
  | _, _, _, .immediate _ _ => by simp [Template.operands]
  | _, _, _, .const _ _ => by simp [Template.operands]
  | _, _, _, .monadic _ ha => by
    rw [Template.operands]
    exact ha.meets
  | _, _, _, .direct _ ha hb | _, _, _, .swapped _ _ ha hb => by
    rw [Template.operands]
    intro op hop
    rcases List.mem_append.mp hop with hop | hop
    · obtain ⟨slot, hmet⟩ := ha.meets op hop
      exact ⟨slot, List.mem_append_left _ hmet⟩
    · obtain ⟨slot, hmet⟩ := hb.meets op hop
      exact ⟨slot, List.mem_append_right _ hmet⟩
  | _, _, _, .sum _ _ _ hconst hterms => by
    rw [Template.operands]
    intro op hop
    rcases List.mem_append.mp hop with hop | hop
    · obtain ⟨slot, hmet⟩ := hterms.meets op hop
      exact ⟨slot, List.mem_append_right _ hmet⟩
    · cases hconst with
      | equal => cases hop
      | absorbed _ =>
        rw [List.mem_singleton.mp hop]
        exact ⟨_, List.mem_append_left _ List.mem_cons_self⟩

theorem AlignedTerms.meets : ∀ {ts : List (Bool × Template)} {cs : List (Bool × Canon)}
    {ms : List (Operand × Slot)}, AlignedTerms limits ts cs ms →
    ∀ op ∈ Template.operandsOfTerms ts, ∃ slot, (op, slot) ∈ ms
  | _, _, _, .nil => by simp [Template.operandsOfTerms]
  | _, _, _, .cons hfirst hrest => by
    rw [Template.operandsOfTerms]
    intro op hop
    rcases List.mem_append.mp hop with hop | hop
    · obtain ⟨slot, hmet⟩ := hfirst.meets op hop
      exact ⟨slot, List.mem_append_left _ hmet⟩
    · obtain ⟨slot, hmet⟩ := hrest.meets op hop
      exact ⟨slot, List.mem_append_right _ hmet⟩

end

/-! ## Numbers in order -/

theorem mem_insertNumber {n m : Nat} {ns : List Nat} :
    m ∈ Candidate.insertNumber n ns ↔ m = n ∨ m ∈ ns := by
  induction ns with
  | nil => simp [Candidate.insertNumber]
  | cons k ns ih =>
    rw [Candidate.insertNumber]
    split
    · simp
    split
    · rename_i heq
      simp [heq]
    · simp only [List.mem_cons, ih]
      exact or_left_comm

theorem pairwise_insertNumber (n : Nat) {ns : List Nat} (h : ns.Pairwise (· < ·)) :
    (Candidate.insertNumber n ns).Pairwise (· < ·) := by
  induction ns with
  | nil => simp [Candidate.insertNumber]
  | cons k ns ih =>
    obtain ⟨hhead, htail⟩ := List.pairwise_cons.mp h
    rw [Candidate.insertNumber]
    split
    · rename_i hlt
      refine List.pairwise_cons.mpr ⟨fun m hm => ?_, h⟩
      rcases List.mem_cons.mp hm with rfl | hm
      · exact hlt
      · exact Nat.lt_trans hlt (hhead m hm)
    split
    · exact h
    · refine List.pairwise_cons.mpr ⟨fun m hm => ?_, ih htail⟩
      rcases mem_insertNumber.mp hm with rfl | hm
      · omega
      · exact hhead m hm

theorem mem_distinct {n : Nat} {ns : List Nat} : n ∈ Candidate.distinct ns ↔ n ∈ ns := by
  induction ns with
  | nil => exact Iff.rfl
  | cons m ns ih =>
    show n ∈ Candidate.insertNumber m (Candidate.distinct ns) ↔ _
    rw [mem_insertNumber, ih, List.mem_cons]

theorem pairwise_distinct (ns : List Nat) : (Candidate.distinct ns).Pairwise (· < ·) := by
  induction ns with
  | nil => exact .nil
  | cons m ns ih => exact pairwise_insertNumber m ih

theorem count_distinct_le (ns : List Nat) (n : Nat) :
    (Candidate.distinct ns).count n ≤ ns.count n := by
  have hnodup : (Candidate.distinct ns).Nodup := (pairwise_distinct ns).imp Nat.ne_of_lt
  by_cases hn : n ∈ ns
  · have hone := List.nodup_iff_count_le_one.mp hnodup n
    have hpos := List.count_pos_iff.mpr hn
    omega
  · rw [List.count_eq_zero.mpr (mt mem_distinct.mp hn)]
    exact Nat.zero_le _

/-! ## Candidates -/

/-- A candidate of a definition at a node stems from an alignment of the given template, found in
the given state, with the given meetings. -/
structure Stems (limits : Limits) (e : Entry) (c : Canon) (cand : Candidate) (t : Template)
    (s : State) (ms : List (Operand × Slot)) : Prop where
  template : e.template = some t
  found : s ∈ align limits t c {}
  aligned : Aligned limits t c ms
  met : meetAll limits [] ms = some s.slots
  bound : bindSlots s {} e.definition.operands = some cand.instruction.operands
  entry : cand.instruction.entry = e
  absorbed : cand.absorbed = Candidate.distinct s.absorbed
  score : cand.score = ⟨c.origin.source.size, cand.absorbed.length, s.guards⟩
  root : cand.root = c.source
  consumed : cand.consumed = []

theorem stems_of_attempt {e : Entry} {c : Canon} {cand : Candidate}
    (h : attempt limits e c = some cand) : ∃ t s ms, Stems limits e c cand t s ms := by
  obtain ⟨t, ht, hfind⟩ := Option.bind_eq_some_iff.mp h
  obtain ⟨s, hs, hcand⟩ := List.exists_of_findSome?_eq_some hfind
  obtain ⟨bound, hbound, rfl⟩ := Option.map_eq_some_iff.mp hcand
  obtain ⟨ms, haligned, hmeet⟩ := (realizes_align limits t c {} s.slots).mp ⟨s, hs, rfl⟩
  exact ⟨t, s, ms, ht, hs, haligned, hmeet, hbound, rfl, rfl, rfl, rfl, rfl⟩

/-- Meetings keep one entry for each name. -/
theorem nodup_meetAll {slots slots' : List (String × Slot)} {ms : List (Operand × Slot)}
    (hslots : (slots.map Prod.fst).Nodup) (h : meetAll limits slots ms = some slots') :
    (slots'.map Prod.fst).Nodup := by
  induction ms generalizing slots with
  | nil => rwa [← Option.some.inj h]
  | cons m ms ih =>
    rw [meetAll, List.foldlM_cons] at h
    obtain ⟨next, hmeet, hrest⟩ := Option.bind_eq_some_iff.mp h
    refine ih ?_ hrest
    obtain ⟨-, ⟨hnone, rfl⟩ | ⟨before, -, -, rfl⟩⟩ := meet_eq_some hmeet
    · exact List.nodup_cons.mpr ⟨(NameMap.lookup_eq_none_iff _ _).mp hnone, hslots⟩
    · exact hslots

/-- A name that has met nothing is left as it was. -/
theorem get?_bindSlots_of_none {s : State} {bound bound' : NameMap Bound} {ops : List Operand}
    (h : bindSlots s bound ops = some bound') {name : String} (hname : s.slots.lookup name = none) :
    bound'.get? name = bound.get? name := by
  induction ops generalizing bound with
  | nil => rw [Option.some.inj h]
  | cons op ops ih =>
    rw [bindSlots] at h
    split at h
    · exact ih h
    · rename_i slot hslot
      obtain ⟨b, -, hrest⟩ := Option.bind_eq_some_iff.mp h
      have hne : name ≠ op.name := by
        rintro rfl
        cases hname.symm.trans hslot
      rw [ih hrest, NameMap.get?_insert, if_neg hne]

namespace Stems
variable {e : Entry} {c : Canon} {cand : Candidate} {t : Template} {s : State}
  {ms : List (Operand × Slot)} (h : Stems limits e c cand t s ms)
include h

/-- The state of a candidate uses every node of the form once at most. -/
theorem used_le (n : Nat) : s.used.count n ≤ c.allAbsorbed.count n := by
  have hused := (follows_align limits t h.found).used n
  simpa [State.used] using hused

/-- Every entry of the state is found by its name. -/
theorem lookup_of_mem {slot : String × Slot} (hslot : slot ∈ s.slots) :
    s.slots.lookup slot.1 = some slot.2 := by
  refine NameMap.lookup_of_mem (nodup_meetAll ?_ h.met) hslot
  exact List.nodup_nil

theorem root_absorbed (ht : t.isOperator = true) (hc : c.source ∈ c.origin.absorbed) :
    cand.root ∈ cand.absorbed := by
  rw [h.root, h.absorbed, mem_distinct]
  exact absorbed_of_operator ht h.found hc

/-- Every input has met something. -/
theorem lookup_isSome (hused : ∀ op ∈ e.definition.inputs, op ∈ t.operands) {op : Operand}
    (hop : op ∈ e.definition.inputs) : (s.slots.lookup op.name).isSome = true := by
  obtain ⟨slot, hmet⟩ := h.aligned.meets op (hused op hop)
  rw [lookup_meetAll h.met, List.lookup_nil, Option.none_or, Option.isSome_map, List.find?_isSome]
  exact ⟨_, hmet, decide_eq_true rfl⟩

section Compiled
variable (hreads : t.Reads e.definition.inputs)
include hreads

/-- What an operand has met is met by an input, a node of the form or a constant. -/
theorem placed_of_lookup {name : String} {slot : Slot} (hslot : s.slots.lookup name = some slot) :
    ∃ op, op.name = name ∧ Placed e.definition.inputs c (op, slot) ∧
      fits limits op slot = true := by
  obtain ⟨op, hname, hmet⟩ := met_of_lookup h.met hslot
  exact ⟨op, hname, h.aligned.placed hreads _ hmet, (meetAll_isSome_iff.mp ⟨_, h.met⟩).1 _ hmet⟩

/-- What has been met can be bound. -/
theorem boundOf_isSome {name : String} {slot : Slot} (hslot : s.slots.lookup name = some slot) :
    (boundOf? slot).isSome = true := by
  obtain ⟨op, rfl, hplaced, -⟩ := h.placed_of_lookup hreads hslot
  have hall := bindSlots_isSome_iff.mp (Option.isSome_iff_exists.mpr ⟨_, h.bound⟩)
  exact hall op (List.mem_filter.mp hplaced.mem).1 slot hslot

/-- An operand is bound to what it has met. -/
theorem binding_eq (name : String) :
    cand.binding? name = (s.slots.lookup name).bind boundOf? := by
  unfold Candidate.binding?
  cases hslot : s.slots.lookup name with
  | none => exact get?_bindSlots_of_none h.bound hslot
  | some slot =>
    obtain ⟨op, rfl, hplaced, -⟩ := h.placed_of_lookup hreads hslot
    have hop := (List.mem_filter.mp hplaced.mem).1
    exact get?_bindSlots h.bound hslot (.inl (List.mem_map_of_mem hop))

end Compiled
end Stems

/-! ## Rounding shifts -/

/-- A rounding shift is a right shift of a sum; without the constant, the sum and the shift are
synthetic. -/
theorem roundingShift_eq_some {c : Canon} {shift : RoundingShift}
    (h : roundingShift? c = some shift) :
    ∃ o so terms k adds amount, c = .dyadic o .shr (.sum so terms k adds) amount ∧
      shift = ⟨.dyadic (markSynthetic o) .shr (stripConstant so terms) amount,
        .sum so terms k adds, adds⟩ := by
  unfold roundingShift? at h
  split at h
  · split at h
    · split at h
      · exact ⟨_, _, _, _, _, _, rfl, (Option.some.inj h).symm⟩
      · cases h
    · cases h
  · cases h

/-- Without its constant a sum has the terms that it had, and is synthetic unless it is a term. -/
theorem stripConstant_cases (o : Origin) (terms : List (Bool × Canon)) :
    (∃ c, terms = [(false, c)] ∧ stripConstant o terms = c) ∨
      stripConstant o terms = .sum (markSynthetic o) terms 0 [] := by
  unfold stripConstant
  split
  · exact .inl ⟨_, rfl, rfl⟩
  · exact .inr rfl

section Rounding
variable {o so : Origin} {terms : List (Bool × Canon)} {amount : Canon}

theorem count_stripped_le (k : Int) (adds : List Nat) (n : Nat) :
    (Canon.dyadic (markSynthetic o) .shr (stripConstant so terms) amount).allAbsorbed.count n ≤
      (Canon.dyadic o .shr (.sum so terms k adds) amount).allAbsorbed.count n := by
  rcases stripConstant_cases so terms with ⟨c, rfl, heq⟩ | heq <;> rw [heq] <;>
    simp only [Canon.allAbsorbed, Canon.absorbedOfTerms, markSynthetic, List.count_append] <;> omega

/-- What is not synthetic in a rounding shift without its constant lies in a term or the amount. -/
theorem mem_of_mem_stripped {d : Canon}
    (hd : d ∈ (Canon.dyadic (markSynthetic o) .shr (stripConstant so terms) amount).preorder)
    (hreal : d.origin.synthetic = false) :
    ∃ a ∈ amount :: terms.map Prod.snd, d ∈ a.preorder := by
  rw [Canon.preorder_eq] at hd
  rcases List.mem_cons.mp hd with rfl | hd
  · cases hreal
  obtain ⟨a, ha, hda⟩ := List.mem_flatMap.mp hd
  rcases List.mem_pair.mp ha with rfl | rfl
  · rcases stripConstant_cases so terms with ⟨c, rfl, heq⟩ | heq
    · rw [heq] at hda
      exact ⟨c, by simp, hda⟩
    · rw [heq, Canon.preorder_eq] at hda
      rcases List.mem_cons.mp hda with rfl | hterms
      · cases hreal
      · obtain ⟨a, ha, hda⟩ := List.mem_flatMap.mp hterms
        exact ⟨a, List.mem_cons_of_mem _ ha, hda⟩
  · exact ⟨a, List.mem_cons_self, hda⟩

/-- Such a node is a node of the rounding shift. -/
theorem mem_preorder_of_mem_term (k : Int) (adds : List Nat) {a d : Canon}
    (ha : a ∈ amount :: terms.map Prod.snd) (hd : d ∈ a.preorder) :
    d ∈ (Canon.dyadic o .shr (.sum so terms k adds) amount).preorder := by
  rcases List.mem_cons.mp ha with rfl | ha
  · exact Canon.mem_preorder_of_child (by simp [Canon.children]) hd
  · refine Canon.mem_preorder_of_child (d := .sum so terms k adds) (by simp [Canon.children]) ?_
    exact Canon.mem_preorder_of_child ha hd

/-- What went into the sum itself went neither into a term nor into the amount. -/
theorem not_mem_of_mem_sum {k : Int} {adds : List Nat}
    (hnodup : (Canon.dyadic o .shr (.sum so terms k adds) amount).allAbsorbed.Nodup) {n : Nat}
    (hn : n ∈ so.absorbed) {a : Canon} (ha : a ∈ amount :: terms.map Prod.snd) :
    n ∉ a.allAbsorbed := by
  intro hmem
  simp only [Canon.allAbsorbed, Canon.absorbedOfTerms_eq] at hnodup
  obtain ⟨hleft, -, hamount⟩ := List.nodup_append.mp hnodup
  obtain ⟨-, hsum, -⟩ := List.nodup_append.mp hleft
  obtain ⟨-, -, hterms⟩ := List.nodup_append.mp hsum
  rcases List.mem_cons.mp ha with rfl | ha
  · exact hamount n (List.mem_append_right _ (List.mem_append_left _ hn)) n hmem rfl
  · exact hterms n hn n (List.mem_flatMap.mpr ⟨a, ha, hmem⟩) rfl

end Rounding

/-! ## Every candidate -/

/-- What holds of every candidate at a node, where `slots` are what its operands have met. -/
structure Footprint (c : Canon) (cand : Candidate) (slots : List (String × Slot)) : Prop where
  binding : ∀ name, cand.binding? name = (slots.lookup name).bind boundOf?
  bindable : ∀ name slot, slots.lookup name = some slot → (boundOf? slot).isSome = true
  placed : ∀ name slot, slots.lookup name = some slot → ∃ op, op.name = name ∧
    Placed cand.instruction.entry.definition.inputs c (op, slot) ∧
      ∀ v, slot = .imm v → op.inRange v = true
  inputs : ∀ op ∈ cand.instruction.entry.definition.inputs, (slots.lookup op.name).isSome = true
  root : cand.root = c.source
  root_absorbed : cand.root ∈ cand.absorbed
  consumed : cand.consumed ⊆ cand.absorbed
  sorted : cand.absorbed.Pairwise (· < ·)
  covered : cand.score.covered = c.origin.source.size
  counted : cand.score.absorbed = cand.absorbed.length
  used : c.allAbsorbed.Nodup → ∀ n,
    cand.absorbed.count n + (slots.flatMap (·.2.numbers)).count n ≤ c.allAbsorbed.count n

variable {e : Entry} {c : Canon} {cand : Candidate}

/-- The template of a definition was compiled against it. -/
structure Compiled (e : Entry) (t : Template) : Prop where
  reads : t.Reads e.definition.inputs
  used : ∀ op ∈ e.definition.inputs, op ∈ t.operands
  operator : t.isOperator = true

theorem Stems.used_add_le {t : Template} {s : State} {ms : List (Operand × Slot)}
    (h : Stems limits e c cand t s ms) (n : Nat) :
    cand.absorbed.count n + (s.slots.flatMap (·.2.numbers)).count n ≤ c.allAbsorbed.count n := by
  have hused := h.used_le n
  have hdistinct := count_distinct_le s.absorbed n
  rw [State.used, List.count_append] at hused
  rw [h.absorbed]
  omega

/-- A candidate of a definition has a footprint. -/
theorem footprint_of_attempt (hcompiled : ∀ t, e.template = some t → Compiled e t) (hc : c.IsForm)
    (h : attempt limits e c = some cand) : ∃ slots, Footprint c cand slots := by
  obtain ⟨t, s, ms, hstems⟩ := stems_of_attempt h
  have ht := hcompiled t hstems.template
  refine ⟨s.slots, ⟨hstems.binding_eq ht.reads, fun _ _ => hstems.boundOf_isSome ht.reads,
    fun name slot hslot => ?_, ?_, hstems.root,
    hstems.root_absorbed ht.operator hc.listed.source, ?_, ?_, ?_, ?_,
    fun _ => hstems.used_add_le⟩⟩
  · obtain ⟨op, hname, hplaced, hfits⟩ := hstems.placed_of_lookup ht.reads hslot
    rw [hstems.entry]
    refine ⟨op, hname, hplaced, fun v hv => ?_⟩
    rw [hv] at hfits
    exact hfits
  · rw [hstems.entry]
    exact fun op hop => hstems.lookup_isSome ht.used hop
  · rw [hstems.consumed]
    exact List.nil_subset _
  · rw [hstems.absorbed]
    exact pairwise_distinct _
  · rw [hstems.score]
  · rw [hstems.score]

section Rounding
variable {o so : Origin} {terms : List (Bool × Canon)} {amount : Canon} {plain : Candidate}
variable {t : Template} {s : State} {ms : List (Operand × Slot)}

/-- A register that could be bound in a rounding shift without its constant has met a node that is
not synthetic. -/
theorem Stems.mem_term_of_lookup
    (h : Stems limits e (.dyadic (markSynthetic o) .shr (stripConstant so terms) amount) plain t s
      ms)
    (hreads : t.Reads e.definition.inputs) {name : String} {d : Canon}
    (hslot : s.slots.lookup name = some (.node d)) :
    ∃ a ∈ amount :: terms.map Prod.snd, d ∈ a.preorder := by
  obtain ⟨op, -, hplaced, -⟩ := h.placed_of_lookup hreads hslot
  cases hplaced with
  | node _ _ hd =>
    refine mem_of_mem_stripped hd ?_
    have hbound := h.boundOf_isSome hreads hslot
    simpa [boundOf?] using hbound

/-- Replacing the sum along with the rounding shift takes nothing from the operands, which have met
nodes below the sum. -/
theorem Stems.used_add_sum_le
    (h : Stems limits e (.dyadic (markSynthetic o) .shr (stripConstant so terms) amount) plain t s
      ms)
    (hreads : t.Reads e.definition.inputs) {k : Int} {adds : List Nat}
    (hnodup : (Canon.dyadic o .shr (.sum so terms k adds) amount).allAbsorbed.Nodup) (n : Nat) :
    (Candidate.distinct (plain.absorbed ++ so.absorbed)).count n +
        (s.slots.flatMap (·.2.numbers)).count n ≤
      (Canon.dyadic o .shr (.sum so terms k adds) amount).allAbsorbed.count n := by
  by_cases hn : n ∈ so.absorbed
  · have hslots : (s.slots.flatMap (·.2.numbers)).count n = 0 := by
      refine List.count_eq_zero.mpr fun hmem => ?_
      obtain ⟨⟨name, slot⟩, hslot, hnumber⟩ := List.mem_flatMap.mp hmem
      cases slot with
      | node d =>
        obtain ⟨a, ha, hda⟩ := h.mem_term_of_lookup hreads (h.lookup_of_mem hslot)
        exact not_mem_of_mem_sum hnodup hn ha (Canon.allAbsorbed_subset hda hnumber)
      | imm v => cases hnumber
    have hone := List.nodup_iff_count_le_one.mp ((pairwise_distinct
      (plain.absorbed ++ so.absorbed)).imp Nat.ne_of_lt) n
    have hpos : 0 < (Canon.dyadic o .shr (.sum so terms k adds) amount).allAbsorbed.count n := by
      refine List.count_pos_iff.mpr ?_
      simp only [Canon.allAbsorbed, List.mem_append]
      exact .inl (.inr (.inl hn))
    omega
  · have hdistinct := count_distinct_le (plain.absorbed ++ so.absorbed) n
    rw [List.count_append, List.count_eq_zero.mpr hn] at hdistinct
    exact Nat.le_trans (Nat.add_le_add_right hdistinct _)
      (Nat.le_trans (h.used_add_le n) (count_stripped_le k adds n))

end Rounding

/-- A candidate for a rounding form has a footprint, to which the sum under the shift belongs. -/
theorem footprint_of_rounding {variant : Entry} {shift : RoundingShift}
    (hcompiled : ∀ t, e.template = some t → Compiled e t)
    (hoperands : e.definition.operands = variant.definition.operands) (hc : c.IsForm)
    (hshift : roundingShift? c = some shift)
    (h : attemptRounding limits shift e variant = some cand) : ∃ slots, Footprint c cand slots := by
  obtain ⟨o, so, terms, k, adds, amount, rfl, rfl⟩ := roundingShift_eq_some hshift
  obtain ⟨plain, hplain, rfl⟩ := Option.map_eq_some_iff.mp h
  obtain ⟨t, s, ms, hstems⟩ := stems_of_attempt hplain
  have ht := hcompiled t hstems.template
  have hinputs : e.definition.inputs = variant.definition.inputs := by
    rw [Definition.inputs, Definition.inputs, hoperands]
  have hsum : (Canon.sum so terms k adds).IsForm :=
    hc.of_mem (Canon.mem_preorder_of_child (by simp [Canon.children]) (Canon.mem_preorder_self _))
  have hadds : adds ⊆ so.absorbed := hsum.listed.adds _ _ _ _ rfl
  refine ⟨s.slots, ⟨hstems.binding_eq ht.reads, fun _ _ => hstems.boundOf_isSome ht.reads,
    fun name slot hslot => ?_, ?_, hstems.root, ?_, ?_, pairwise_distinct _, ?_, rfl,
    fun hnodup => hstems.used_add_sum_le ht.reads hnodup⟩⟩
  · obtain ⟨op, hname, hplaced, hfits⟩ := hstems.placed_of_lookup ht.reads hslot
    rw [hinputs] at hplaced
    cases hplaced with
    | node hop hkind hd =>
      obtain ⟨a, ha, hda⟩ := hstems.mem_term_of_lookup ht.reads hslot
      exact ⟨op, hname, .node hop hkind (mem_preorder_of_mem_term k adds ha hda), by simp⟩
    | imm hop hkind v =>
      refine ⟨op, hname, .imm hop hkind v, fun w hw => ?_⟩
      rw [← Slot.imm.inj hw]
      exact hfits
  · rw [← hinputs]
    exact fun op hop => hstems.lookup_isSome ht.used hop
  · have hroot := hstems.root_absorbed ht.operator hc.listed.source
    exact mem_distinct.mpr (List.mem_append_left _ hroot)
  · exact fun n hn => mem_distinct.mpr (List.mem_append_right _ (hadds hn))
  · show plain.score.covered = _
    rw [hstems.score]
    rfl

end Match
end CustomIsa
