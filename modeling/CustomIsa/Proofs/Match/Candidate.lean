import CustomIsa.Bundled
import CustomIsa.Match.Select
import CustomIsa.Proofs.Canon.Visible
import CustomIsa.Proofs.Match.Alignment
import CustomIsa.Proofs.Registry.Lookup
/-! # Candidates and alignments

A definition is a candidate at a node exactly if its template has an alignment with the canonical
form of the node in which all meetings of one operand agree (`Matcher.matchAt_iff_aligned`). Only
the definitions that the table lists for the shape of the node are tried, but these are all that
could align (`Matcher.filterMap_shaped`).

The search may end with states that make no candidate: an operand may have met a node that stands
for no value of the source, or a constant that is too large. Neither happens at a node of an
expression, because all nodes of its canonical form stand for expressions below it (`Match.Placed`)
and every immediate range lies within 64 bits. -/
namespace CustomIsa

/-- The form is the canonical form of an expression. -/
def Canon.IsForm (c : Canon) : Prop := ∃ e, ofExpr e = c

theorem Canon.IsForm.of_mem {c d : Canon} (h : c.IsForm) (hd : d ∈ c.preorder) : d.IsForm := by
  obtain ⟨e, rfl⟩ := h
  obtain ⟨s, -, rfl⟩ := form_of_mem_preorder hd
  exact ⟨s, rfl⟩

namespace Match
variable {limits : Limits} {ops : List Operand}

/-! ## What operands meet -/

/-- A register meets a node of the form, and an immediate meets a constant. -/
inductive Placed (ops : List Operand) (c : Canon) : Operand × Slot → Prop where
  | node {op : Operand} (hop : op ∈ ops) (hkind : op.kind = .register) {d : Canon}
    (hd : d ∈ c.preorder) : Placed ops c (op, .node d)
  | imm {op : Operand} (hop : op ∈ ops) (hkind : op.kind = .immediate) (v : Int) :
    Placed ops c (op, .imm v)

theorem Placed.mem {c : Canon} {op : Operand} {slot : Slot} (h : Placed ops c (op, slot)) :
    op ∈ ops := by
  cases h with
  | node hop => exact hop
  | imm hop => exact hop

theorem Placed.of_child {c d : Canon} (hd : d ∈ c.children) {m : Operand × Slot}
    (h : Placed ops d m) : Placed ops c m := by
  cases h with
  | node hop hkind hx => exact .node hop hkind (Canon.mem_preorder_of_child hd hx)
  | imm hop hkind v => exact .imm hop hkind v

theorem MeetsConstant.placed {constant met : Int} {absorber : Option Operand}
    {ms : List (Operand × Slot)} (h : MeetsConstant constant absorber met ms)
    (hops : ∀ op, absorber = some op → op ∈ ops ∧ op.kind = .immediate) (c : Canon) :
    ∀ m ∈ ms, Placed ops c m := by
  cases h with
  | equal => simp
  | absorbed =>
    intro m hm
    obtain rfl := List.mem_singleton.mp hm
    exact .imm (hops _ rfl).1 (hops _ rfl).2 _

mutual

/-- **In an alignment with a form, registers meet nodes of the form and immediates meet
constants.** -/
theorem Aligned.placed : ∀ {t : Template} {c : Canon} {ms : List (Operand × Slot)},
    Aligned limits t c ms → t.Reads ops → ∀ m ∈ ms, Placed ops c m
  | _, _, _, .register _, ht => by
    rw [Template.Reads] at ht
    simpa using .node ht.1 ht.2 (Canon.mem_preorder_self _)
  | _, _, _, .immediate _ _, ht => by
    rw [Template.Reads] at ht
    simpa using .imm ht.1 ht.2 _
  | _, _, _, .const _ _, _ => by simp
  | _, _, _, .monadic _ ha, ht => by
    rw [Template.Reads] at ht
    exact fun m hm => (ha.placed ht m hm).of_child (by simp [Canon.children])
  | _, _, _, .direct _ ha hb, ht => by
    rw [Template.Reads] at ht
    exact List.forall_mem_append.mpr
      ⟨fun m hm => (ha.placed ht.1 m hm).of_child (by simp [Canon.children]),
        fun m hm => (hb.placed ht.2 m hm).of_child (by simp [Canon.children])⟩
  | _, _, _, .swapped _ _ hb ha, ht => by
    rw [Template.Reads] at ht
    exact List.forall_mem_append.mpr
      ⟨fun m hm => (hb.placed ht.1 m hm).of_child (by simp [Canon.children]),
        fun m hm => (ha.placed ht.2 m hm).of_child (by simp [Canon.children])⟩
  | _, _, _, .sum _ _ hpaired hconst hterms, ht => by
    rw [Template.Reads] at ht
    refine List.forall_mem_append.mpr ⟨hconst.placed ht.2.1 _, fun m hm => ?_⟩
    obtain ⟨d, hd, hplaced⟩ := hterms.placed ht.1 m hm
    refine hplaced.of_child ?_
    rw [Canon.children]
    exact List.mem_map_of_mem (hpaired.subset hd)

theorem AlignedTerms.placed : ∀ {ts : List (Bool × Template)} {cs : List (Bool × Canon)}
    {ms : List (Operand × Slot)}, AlignedTerms limits ts cs ms → Template.ReadsTerms ops ts →
    ∀ m ∈ ms, ∃ d ∈ cs, Placed ops d.2 m
  | _, _, _, .nil, _ => by simp
  | _, _, _, .cons hfirst hrest, ht => by
    rw [Template.ReadsTerms] at ht
    refine List.forall_mem_append.mpr
      ⟨fun m hm => ⟨_, List.mem_cons_self, hfirst.placed ht.1 m hm⟩, fun m hm => ?_⟩
    obtain ⟨d, hd, hplaced⟩ := hrest.placed ht.2 m hm
    exact ⟨d, List.mem_cons_of_mem _ hd, hplaced⟩

end

/-- The meetings of an alignment can be had together: the nodes that one register meets fit it and
have one key, and the values that one immediate meets are in its range and equal. -/
structure Consistent (limits : Limits) (ms : List (Operand × Slot)) : Prop where
  fits : ∀ op c, (op, .node c) ∈ ms → fitsRegister limits.xlen op c.info = true
  oneKey : ∀ op c d, (op, .node c) ∈ ms → (op, .node d) ∈ ms → c.key = d.key
  inRange : ∀ op v, (op, .imm v) ∈ ms → op.inRange v = true
  oneValue : ∀ op v w, (op, .imm v) ∈ ms → (op, .imm w) ∈ ms → v = w

/-- **Meetings can be had one after another exactly if they can be had together.** -/
theorem meetAll_iff_consistent {c : Canon} {ms : List (Operand × Slot)}
    (hdistinct : (ops.map Operand.name).Nodup) (hplaced : ∀ m ∈ ms, Placed ops c m) :
    (∃ slots, meetAll limits [] ms = some slots) ↔ Consistent limits ms := by
  rw [meetAll_isSome_iff]
  constructor
  · rintro ⟨hfits, -, hpair⟩
    have hsymm : Std.Symm fun m m' : Operand × Slot =>
        m.1.name = m'.1.name → m.2.agrees m'.2 = true :=
      ⟨fun _ _ h heq => Slot.agrees_symm (h heq.symm)⟩
    have hagree := hpair.forall_of_forall fun m _ _ => m.2.agrees_refl
    refine ⟨fun op c hc => hfits _ hc, fun op c d hc hd => ?_, fun op v hv => hfits _ hv,
      fun op v w hv hw => ?_⟩
    · simpa [Slot.agrees] using hagree hc hd rfl
    · simpa [Slot.agrees] using hagree hv hw rfl
  · intro h
    refine ⟨fun m hm => ?_, by simp, List.pairwise_of_forall_mem_list fun m hm m' hm' hname => ?_⟩
    · cases hplaced m hm with
      | node => exact h.fits _ _ hm
      | imm => exact h.inRange _ _ hm
    · -- operands of one name are one operand, which meets things of one kind
      cases hplaced m hm with
      | node hop hkind =>
        cases hplaced m' hm' with
        | node hop' hkind' =>
          obtain rfl := List.inj_on_of_nodup_map hdistinct hop hop' hname
          simpa [Slot.agrees] using h.oneKey _ _ _ hm hm'
        | imm hop' hkind' =>
          obtain rfl := List.inj_on_of_nodup_map hdistinct hop hop' hname
          cases hkind.symm.trans hkind'
      | imm hop hkind =>
        cases hplaced m' hm' with
        | node hop' hkind' =>
          obtain rfl := List.inj_on_of_nodup_map hdistinct hop hop' hname
          cases hkind.symm.trans hkind'
        | imm hop' hkind' =>
          obtain rfl := List.inj_on_of_nodup_map hdistinct hop hop' hname
          simpa [Slot.agrees] using h.oneValue _ _ _ hm hm'

/-! ## Candidates from states -/

theorem bindSlots_isSome_iff {s : State} {bound : NameMap Bound} :
    (bindSlots s bound ops).isSome = true ↔
      ∀ op ∈ ops, ∀ slot, s.slots.lookup op.name = some slot → (boundOf? slot).isSome = true := by
  induction ops generalizing bound with
  | nil => simp [bindSlots]
  | cons op ops ih =>
    rw [bindSlots, List.forall_mem_cons]
    cases hlookup : s.slots.lookup op.name with
    | none => simp [ih]
    | some slot =>
      cases hbound : boundOf? slot with
      | none => simp [hbound]
      | some b => simp [hbound, ih]

/-- An operand is bound to what it has met first. -/
theorem get?_bindSlots {s : State} {bound bound' : NameMap Bound}
    (h : bindSlots s bound ops = some bound') {name : String} {slot : Slot}
    (hslot : s.slots.lookup name = some slot)
    (hname : name ∈ ops.map Operand.name ∨ bound.get? name = boundOf? slot) :
    bound'.get? name = boundOf? slot := by
  induction ops generalizing bound with
  | nil =>
    obtain rfl := Option.some.inj h
    exact hname.resolve_left (by simp)
  | cons op ops ih =>
    rw [bindSlots] at h
    by_cases heq : op.name = name
    · subst heq
      rw [hslot] at h
      obtain ⟨b, hb, hrest⟩ := Option.bind_eq_some_iff.mp h
      exact ih hrest (.inr (by rw [NameMap.get?_insert, if_pos rfl, hb]))
    · have hname : name ∈ ops.map Operand.name ∨ bound.get? name = boundOf? slot := by
        rcases hname with hname | hname
        · exact .inl ((List.mem_cons.mp hname).resolve_left (Ne.symm heq))
        · exact .inr hname
      split at h
      · exact ih h hname
      · obtain ⟨b, -, hrest⟩ := Option.bind_eq_some_iff.mp h
        refine ih hrest (hname.imp_right fun hname => ?_)
        rw [NameMap.get?_insert, if_neg (Ne.symm heq), hname]

/-- An attempt succeeds exactly if some alignment leaves each operand with something that can be
bound. -/
theorem attempt_isSome_iff {e : Entry} {t : Template} {c : Canon} (ht : e.template = some t) :
    (attempt limits e c).isSome = true ↔
      ∃ ms slots, Aligned limits t c ms ∧ meetAll limits [] ms = some slots ∧
        ∀ op ∈ e.definition.operands, ∀ slot, slots.lookup op.name = some slot →
          (boundOf? slot).isSome = true := by
  rw [attempt, ht, Option.bind_some, List.findSome?_isSome_iff]
  simp only [toCandidate, Option.isSome_map, bindSlots_isSome_iff]
  constructor
  · rintro ⟨s, hs, hbound⟩
    obtain ⟨ms, haligned, hmeet⟩ := (realizes_align limits t c {} s.slots).mp ⟨s, hs, rfl⟩
    exact ⟨ms, s.slots, haligned, hmeet, hbound⟩
  · rintro ⟨ms, slots, haligned, hmeet, hbound⟩
    obtain ⟨s, hs, rfl⟩ := (realizes_align limits t c {} slots).mpr ⟨ms, haligned, hmeet⟩
    exact ⟨s, hs, hbound⟩

/-- What is met first by some operand is met in the alignment. -/
theorem met_of_lookup {ms : List (Operand × Slot)} {slots : List (String × Slot)} {name : String}
    {slot : Slot} (h : meetAll limits [] ms = some slots) (hslot : slots.lookup name = some slot) :
    ∃ op, op.name = name ∧ (op, slot) ∈ ms := by
  rw [lookup_meetAll h, List.lookup_nil, Option.none_or] at hslot
  obtain ⟨m, hm, rfl⟩ := Option.map_eq_some_iff.mp hslot
  exact ⟨m.1, by simpa using List.find?_some hm, List.mem_of_find?_eq_some hm⟩

theorem boundOf_isSome_of_placed {c : Canon} (hc : c.IsForm) {op : Operand} {slot : Slot}
    (h : Placed ops c (op, slot)) (hfits : fits limits op slot = true) :
    (boundOf? slot).isSome = true := by
  cases h with
  | node _ _ hd =>
    obtain ⟨e, rfl⟩ := hc.of_mem hd
    simp [boundOf?, Canon.real_ofExpr]
  | imm _ _ v =>
    simp [boundOf?, Operand.inInt64_of_inRange hfits]

/-- **At the canonical form of an expression, an attempt succeeds exactly if there is a consistent
alignment.** -/
theorem attempt_isSome_iff_consistent {e : Entry} {t : Template} {c : Canon}
    (hvalid : e.definition.Valid) (ht : e.template = some t)
    (hreads : t.Reads e.definition.operands) (hc : c.IsForm) :
    (attempt limits e c).isSome = true ↔
      ∃ ms, Aligned limits t c ms ∧ Consistent limits ms := by
  rw [attempt_isSome_iff ht]
  constructor
  · rintro ⟨ms, slots, haligned, hmeet, -⟩
    have hplaced := haligned.placed hreads
    exact ⟨ms, haligned, (meetAll_iff_consistent hvalid.distinct hplaced).mp ⟨slots, hmeet⟩⟩
  · rintro ⟨ms, haligned, hconsistent⟩
    have hplaced := haligned.placed hreads
    obtain ⟨slots, hmeet⟩ := (meetAll_iff_consistent hvalid.distinct hplaced).mpr hconsistent
    refine ⟨ms, slots, haligned, hmeet, fun op _ slot hslot => ?_⟩
    obtain ⟨op', -, hmet⟩ := met_of_lookup hmeet hslot
    exact boundOf_isSome_of_placed hc (hplaced _ hmet)
      ((meetAll_isSome_iff.mp ⟨slots, hmeet⟩).1 _ hmet)

theorem entry_of_attempt {e : Entry} {c : Canon} {cand : Candidate}
    (h : attempt limits e c = some cand) : cand.instruction.entry = e := by
  obtain ⟨t, -, hfind⟩ := Option.bind_eq_some_iff.mp h
  obtain ⟨s, -, hcand⟩ := List.exists_of_findSome?_eq_some hfind
  obtain ⟨bound, -, rfl⟩ := Option.map_eq_some_iff.mp hcand
  rfl

/-- An attempt succeeds at nodes of the shape of the template only. -/
theorem shape_of_attempt {e : Entry} {t : Template} {c : Canon} {cand : Candidate}
    (ht : e.template = some t) (hoperator : t.isOperator = true)
    (h : attempt limits e c = some cand) : ∃ key, c.shape? = some key ∧ e.shape? = some key := by
  obtain ⟨key, hkey⟩ := Option.isSome_iff_exists.mp hoperator
  obtain ⟨ms, slots, haligned, -⟩ :=
    (attempt_isSome_iff ht).mp (Option.isSome_iff_exists.mpr ⟨cand, h⟩)
  refine ⟨key, haligned.shape_eq hkey, ?_⟩
  rw [Entry.shape?, ht]
  exact hkey

/-- Attempts keep the order of definitions. -/
theorem sublist_names_attempt (limits : Limits) (c : Canon) (es : List Entry) :
    ((es.filterMap (attempt limits · c)).map Candidate.name).Sublist (es.map Entry.name) := by
  induction es with
  | nil => exact .slnil
  | cons e es ih =>
    cases hcand : attempt limits e c with
    | none =>
      simp only [List.filterMap_cons, hcand, List.map_cons]
      exact ih.cons _
    | some cand =>
      have hname : cand.name = e.name := congrArg Entry.name (entry_of_attempt hcand)
      simp only [List.filterMap_cons, hcand, List.map_cons, hname]
      exact ih.cons_cons _

/-- A candidate binds every operand of its alignment to something that the operand meets. -/
theorem binds_of_attempt {e : Entry} {t : Template} {c : Canon} {cand : Candidate}
    (hvalid : e.definition.Valid) (ht : e.template = some t)
    (hreads : t.Reads e.definition.operands) (hc : c.IsForm) (h : attempt limits e c = some cand) :
    ∃ ms, Aligned limits t c ms ∧ Consistent limits ms ∧
      ∀ op slot, (op, slot) ∈ ms → ∃ met bound, (op, met) ∈ ms ∧ boundOf? met = some bound ∧
        cand.binding? op.name = some bound := by
  rw [attempt, ht, Option.bind_some] at h
  obtain ⟨s, hs, hcand⟩ := List.exists_of_findSome?_eq_some h
  obtain ⟨bound, hbound, rfl⟩ := Option.map_eq_some_iff.mp hcand
  obtain ⟨ms, haligned, hmeet⟩ := (realizes_align limits t c {} s.slots).mp ⟨s, hs, rfl⟩
  have hplaced := haligned.placed hreads
  refine ⟨ms, haligned, (meetAll_iff_consistent hvalid.distinct hplaced).mp ⟨_, hmeet⟩, ?_⟩
  intro op slot hmem
  have hop : ∀ {op slot}, (op, slot) ∈ ms → op ∈ e.definition.operands :=
    fun hmem => (hplaced _ hmem).mem
  have hfound : (s.slots.lookup op.name).isSome = true := by
    rw [lookup_meetAll hmeet, List.lookup_nil, Option.none_or, Option.isSome_map,
      List.find?_isSome]
    exact ⟨(op, slot), hmem, by simp⟩
  obtain ⟨met, hmet⟩ := Option.isSome_iff_exists.mp hfound
  obtain ⟨op', hname, hmet'⟩ := met_of_lookup hmeet hmet
  obtain rfl := List.inj_on_of_nodup_map hvalid.distinct (hop hmet') (hop hmem) hname
  have hfits := (meetAll_isSome_iff.mp ⟨_, hmeet⟩).1 _ hmet'
  obtain ⟨b, hb⟩ :=
    Option.isSome_iff_exists.mp (boundOf_isSome_of_placed hc (hplaced _ hmet') hfits)
  exact ⟨met, b, hmet', hb,
    (get?_bindSlots hbound hmet (.inl (List.mem_map_of_mem (hop hmem)))).trans hb⟩

end Match

/-! ## The order of candidates -/

theorem Score.le_total (a b : Score) : a.le b = true ∨ b.le a = true := by
  simp only [le, Bool.or_eq_true, Bool.and_eq_true, decide_eq_true_eq]
  omega

theorem Score.le_trans {a b c : Score} (hab : a.le b = true) (hbc : b.le c = true) :
    a.le c = true := by
  simp only [le, Bool.or_eq_true, Bool.and_eq_true, decide_eq_true_eq] at hab hbc ⊢
  omega

namespace Matcher
open Match

theorem pairwise_candidates (m : Matcher) (c : Canon) :
    (m.candidates c).Pairwise fun a b => b.score.le a.score = true :=
  Sorting.pairwise_sort (fun a b : Candidate => Score.le_total b.score a.score)
    (fun _ _ _ hab hbc => Score.le_trans hbc hab) _

theorem mem_candidates {m : Matcher} {c : Canon} {cand : Candidate} :
    cand ∈ m.candidates c ↔ cand ∈ m.unranked c :=
  (Sorting.sort_perm _ _).mem_iff

theorem mem_roundingCandidates {limits : Limits} {r : Registry} {c : Canon} {cand : Candidate} :
    cand ∈ roundingCandidates limits r c ↔ ∃ shift, roundingShift? c = some shift ∧
      ∃ base variant, (base, variant) ∈ r.roundingPairs ∧
        attemptRounding limits shift base variant = some cand := by
  unfold roundingCandidates
  cases roundingShift? c with
  | none => simp
  | some shift => simp [List.mem_filterMap]

/-- A candidate stems from the template of its definition, which has the shape of the node, or its
definition is the rounding form of another one whose template it stems from. -/
theorem mem_candidates_iff {m : Matcher} {c : Canon} {cand : Candidate} :
    cand ∈ m.candidates c ↔
      (∃ e ∈ m.shaped c, attempt m.limits e c = some cand) ∨
        m.settings.roundingDetection = true ∧ ∃ shift, roundingShift? c = some shift ∧
          ∃ base variant, (base, variant) ∈ m.registry.roundingPairs ∧
            attemptRounding m.limits shift base variant = some cand := by
  rw [mem_candidates, unranked, List.mem_append, List.mem_filterMap, ← mem_roundingCandidates]
  refine or_congr_right ?_
  split <;> simp_all

theorem mem_of_mem_shaped {m : Matcher} {c : Canon} {e : Entry} (h : e ∈ m.shaped c) :
    e ∈ m.registry.entries := by
  rw [shaped] at h
  cases hc : c.shape? with
  | none =>
    rw [hc] at h
    cases h
  | some key =>
    rw [hc] at h
    exact Registry.mem_of_mem_shaped h

section Loaded
variable {m : Matcher} (hm : m.registry.Loaded)
include hm

/-- **The table misses no candidate:** trying the definitions of the shape of a node comes to the
same as trying all of them. -/
theorem filterMap_shaped (limits : Limits) (c : Canon) :
    (m.shaped c).filterMap (attempt limits · c) =
      m.registry.entries.filterMap (attempt limits · c) := by
  have hshape : ∀ e ∈ m.registry.entries, ∀ cand, attempt limits e c = some cand →
      ∃ key, c.shape? = some key ∧ e.shape? = some key := by
    intro e he cand hcand
    obtain ⟨t, ht, -⟩ := Option.bind_eq_some_iff.mp hcand
    obtain ⟨text, htext⟩ := hm.compiled he ht
    exact shape_of_attempt ht (Template.reads_ofText htext).2 hcand
  rw [shaped]
  cases hc : c.shape? with
  | none =>
    refine (List.filterMap_eq_nil_iff.mpr fun e he => Option.eq_none_iff_forall_ne_some.mpr ?_).symm
    intro cand hcand
    obtain ⟨key, hkey, -⟩ := hshape e he cand hcand
    cases hc.symm.trans hkey
  | some key =>
    rw [Option.map_some, Option.getD_some, hm.shaped_eq, List.filterMap_filter]
    refine List.filterMap_congr fun e he => ?_
    split
    · rfl
    · rename_i hother
      refine (Option.eq_none_iff_forall_ne_some.mpr fun cand hcand => ?_).symm
      obtain ⟨key', hkey, hkey'⟩ := hshape e he cand hcand
      obtain rfl := Option.some.inj (hc.symm.trans hkey)
      exact hother (decide_eq_true hkey')

/-- A definition whose template aligns is among those of the shape of the node. -/
theorem mem_shaped_iff {limits : Limits} {c : Canon} {e : Entry}
    (hsome : (attempt limits e c).isSome = true) : e ∈ m.shaped c ↔ e ∈ m.registry.entries := by
  refine ⟨mem_of_mem_shaped, fun he => ?_⟩
  obtain ⟨cand, hcand⟩ := Option.isSome_iff_exists.mp hsome
  have hmem : cand ∈ m.registry.entries.filterMap (attempt limits · c) :=
    List.mem_filterMap.mpr ⟨e, he, hcand⟩
  rw [← filterMap_shaped hm] at hmem
  obtain ⟨e', he', hcand'⟩ := List.mem_filterMap.mp hmem
  rwa [← entry_of_attempt hcand, entry_of_attempt hcand']

theorem unranked_eq (c : Canon) :
    m.unranked c = m.registry.entries.filterMap (attempt m.limits · c) ++
      if m.settings.roundingDetection then roundingCandidates m.limits m.registry c else [] := by
  rw [unranked, filterMap_shaped hm]

/-- In a loaded registry, a candidate stems from the template of its definition, or its definition
is the rounding form of another one whose template it stems from. -/
theorem mem_candidates_of_loaded {c : Canon} {cand : Candidate} :
    cand ∈ m.candidates c ↔
      (∃ e ∈ m.registry.entries, attempt m.limits e c = some cand) ∨
        m.settings.roundingDetection = true ∧ ∃ shift, roundingShift? c = some shift ∧
          ∃ base variant, (base, variant) ∈ m.registry.roundingPairs ∧
            attemptRounding m.limits shift base variant = some cand := by
  rw [mem_candidates_iff, ← List.mem_filterMap, filterMap_shaped hm, List.mem_filterMap]

end Loaded

section WithoutRounding
variable {config : RegistrySettings} {extensions : List Extension} {r : Registry}
  (hload : Registry.load config extensions = .ok r) {settings : MatchSettings}
  (hplain : settings.roundingDetection = false)
include hload hplain

theorem unranked_of_plain (c : Canon) :
    (Matcher.new r settings).unranked c = r.entries.filterMap
      (attempt ⟨r.xlen, min settings.maxSumTerms 64, Nat.min_le_right ..⟩ · c) := by
  have hoff : (Matcher.new r settings).settings.roundingDetection = false := hplain
  rw [unranked_eq (Registry.loaded_of_load hload), hoff, if_neg Bool.false_ne_true, List.append_nil]
  rfl

theorem mem_matchAt_of_plain {p : Expr Nat} {cand : Candidate} :
    cand ∈ (Matcher.new r settings).matchAt p ↔ ∃ e ∈ r.entries,
      attempt ⟨r.xlen, min settings.maxSumTerms 64, Nat.min_le_right ..⟩ e (Canon.ofExpr p) =
        some cand := by
  rw [matchAt, mem_candidates, unranked_of_plain hload hplain, List.mem_filterMap]

/-- No definition has two candidates at a node. -/
theorem nodup_matchAt_of_plain (p : Expr Nat) :
    (((Matcher.new r settings).matchAt p).map Candidate.name).Nodup := by
  have hnamed := (Registry.loaded_of_load hload).wellFormed.named
  have hperm := (Sorting.sort_perm (fun a b : Candidate => b.score.le a.score)
    ((Matcher.new r settings).unranked (Canon.ofExpr p))).map Candidate.name
  rw [matchAt, candidates, hperm.nodup_iff, unranked_of_plain hload hplain]
  exact (sublist_names_attempt _ _ _).nodup hnamed

end WithoutRounding

/-- **Matching finds the definitions whose templates align with a node.** In a loaded registry and
without rounding forms, a definition with a template is a candidate at a node exactly if there is an
alignment of the template with the canonical form of the node whose meetings are consistent. Every
candidate binds the operands of such an alignment to what they meet there. Candidates come with the
best score first, and no definition comes twice. -/
theorem matchAt_iff_aligned {config : RegistrySettings} {extensions : List Extension} {r : Registry}
    (hload : Registry.load config extensions = .ok r) {settings : MatchSettings}
    (hplain : settings.roundingDetection = false) (p : Expr Nat) :
    (∀ e ∈ r.entries, ∀ t, e.template = some t →
      ((∃ cand ∈ (Matcher.new r settings).matchAt p, cand.instruction.entry = e) ↔
        ∃ ms, Aligned ⟨r.xlen, min settings.maxSumTerms 64, Nat.min_le_right ..⟩ t
            (Canon.ofExpr p) ms ∧
          Consistent ⟨r.xlen, min settings.maxSumTerms 64, Nat.min_le_right ..⟩ ms)) ∧
    (∀ cand ∈ (Matcher.new r settings).matchAt p, ∃ t ms,
      cand.instruction.entry.template = some t ∧
      Aligned ⟨r.xlen, min settings.maxSumTerms 64, Nat.min_le_right ..⟩ t (Canon.ofExpr p) ms ∧
      Consistent ⟨r.xlen, min settings.maxSumTerms 64, Nat.min_le_right ..⟩ ms ∧
      ∀ op slot, (op, slot) ∈ ms → ∃ met bound, (op, met) ∈ ms ∧ boundOf? met = some bound ∧
        cand.binding? op.name = some bound) ∧
    ((Matcher.new r settings).matchAt p).Pairwise (fun a b => b.score.le a.score = true) ∧
    (((Matcher.new r settings).matchAt p).map Candidate.name).Nodup := by
  have hr := Registry.loaded_of_load hload
  have hreads : ∀ {e t}, e ∈ r.entries → e.template = some t → t.Reads e.definition.operands := by
    intro e t he ht
    obtain ⟨text, htext⟩ := hr.compiled he ht
    exact (Template.reads_ofText htext).1
  refine ⟨fun e he t ht => ?_, fun cand hcand => ?_, pairwise_candidates _ _,
    nodup_matchAt_of_plain hload hplain p⟩
  · rw [← attempt_isSome_iff_consistent (hr.valid he) ht (hreads he ht) ⟨p, rfl⟩]
    constructor
    · rintro ⟨cand, hcand, rfl⟩
      obtain ⟨e', -, hattempt⟩ := (mem_matchAt_of_plain hload hplain).mp hcand
      rw [entry_of_attempt hattempt, hattempt]
      rfl
    · intro hsome
      obtain ⟨cand, hattempt⟩ := Option.isSome_iff_exists.mp hsome
      exact ⟨cand, (mem_matchAt_of_plain hload hplain).mpr ⟨e, he, hattempt⟩,
        entry_of_attempt hattempt⟩
  · obtain ⟨e, he, hattempt⟩ := (mem_matchAt_of_plain hload hplain).mp hcand
    obtain ⟨t, ht, -⟩ := Option.bind_eq_some_iff.mp hattempt
    obtain ⟨ms, haligned, hconsistent, hbinds⟩ :=
      binds_of_attempt (hr.valid he) ht (hreads he ht) ⟨p, rfl⟩ hattempt
    exact ⟨t, ms, (entry_of_attempt hattempt).symm ▸ ht, haligned, hconsistent, hbinds⟩

/-- A rotation by eight bits aligns with a template that reads its operands twice, although both the
halves and the operands of one of them have changed places. -/
theorem matchAt_iff_aligned_rotation :
    ∃ r tree e t ms, Registry.load {} [Bundled.chacha] = .ok r ∧
      ExprTree.ofText (.ofList [("x", .u32), ("y", .u32)]) "(x ^ y) >> 24 | (y ^ x) << 8" =
        .ok tree ∧
      e ∈ r.entries ∧ e.name = "chacha.xorrol8" ∧ e.template = some t ∧
      Aligned ⟨r.xlen, 8, by decide⟩ t (Canon.ofExpr tree.root) ms ∧
      Consistent ⟨r.xlen, 8, by decide⟩ ms := by
  have hrun : (Registry.load {} [Bundled.chacha]).toOption.any (fun r =>
      (ExprTree.ofText (.ofList [("x", .u32), ("y", .u32)])
        "(x ^ y) >> 24 | (y ^ x) << 8").toOption.any fun tree =>
          ((Matcher.new r { roundingDetection := false }).matchAt tree.root).any fun cand =>
            cand.name = "chacha.xorrol8") = true := by
    decide +kernel
  obtain ⟨r, hload, hany⟩ := Option.any_eq_true _ _ |>.mp hrun
  obtain ⟨tree, htext, hany⟩ := Option.any_eq_true _ _ |>.mp hany
  obtain ⟨cand, hcand, hname⟩ := List.any_eq_true.mp hany
  have hload := eq_ok_of_toOption hload
  obtain ⟨e, he, hattempt⟩ := (mem_matchAt_of_plain hload rfl).mp hcand
  obtain ⟨t, ht, -⟩ := Option.bind_eq_some_iff.mp hattempt
  have hentry := entry_of_attempt hattempt
  obtain ⟨ms, haligned, hconsistent⟩ :=
    ((matchAt_iff_aligned hload rfl tree.root).1 e he t ht).mp ⟨cand, hcand, hentry⟩
  refine ⟨r, tree, e, t, ms, hload, eq_ok_of_toOption htext, he, ?_, ht, haligned, hconsistent⟩
  rw [← hentry]
  exact of_decide_eq_true hname

end Matcher
end CustomIsa
