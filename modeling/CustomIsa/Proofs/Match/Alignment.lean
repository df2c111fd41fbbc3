import Mathlib.Data.List.Perm.Basic
import CustomIsa.Match.Align
import CustomIsa.Proofs.Foundations
/-! # Alignments, declared and searched for

What an alignment of a template with a canonical form is (`Match.Aligned`): a choice of the order of
operands at every operator where they may change places, and of a pairing of terms of equal sign at
every sum, such that operators and constants agree and guards hold. It is recorded by what the
operands meet, one entry for each place where an operand stands.

The search `align` carries along what the operands have met and gives up as soon as something
disagrees. Its results are exactly the alignments whose meetings can be had one after another
(`Match.realizes_align`), and that depends on the meetings taken together only: all of them fit
their operands, and those of one name agree (`Match.meetAll_isSome_iff`). In a sum the search marks
the terms that are used up in a word of 64 bits; as long as there are no more terms than that, what
it tries are all arrangements of them (`Match.Used.cons_perm_free_iff`). -/
namespace CustomIsa.Match

/-! ## Alignments -/

/-- All guards hold of a node. -/
def GuardsHold (limits : Limits) (guards : List Guard) (c : Canon) : Prop :=
  ∀ g ∈ guards, g.holds c.info c.ty limits.xlen = true

/-- The constant of a sum meets that of a template: both are equal, or the immediate that absorbs
constants meets their difference, which is not zero. -/
inductive MeetsConstant (constant : Int) : Option Operand → Int → List (Operand × Slot) → Prop where
  | equal : MeetsConstant constant none constant []
  | absorbed {op : Operand} {met : Int} (hne : met ≠ constant) :
    MeetsConstant constant (some op) met [(op, .imm (met - constant))]

mutual

/-- An alignment of a template with a node, by what the operands of the template meet. -/
inductive Aligned (limits : Limits) : Template → Canon → List (Operand × Slot) → Prop where
  | register {guards op c} (hguards : GuardsHold limits guards c) :
    Aligned limits (.register guards op) c [(op, .node c)]
  | immediate {guards op c v} (hguards : GuardsHold limits guards c) (hc : c.constant? = some v) :
    Aligned limits (.immediate guards op) c [(op, .imm v)]
  | const {guards c v} (hguards : GuardsHold limits guards c) (hc : c.constant? = some v) :
    Aligned limits (.const guards v) c []
  | monadic {guards op t o a ms} (hguards : GuardsHold limits guards (.monadic o op a))
    (ha : Aligned limits t a ms) : Aligned limits (.monadic guards op t) (.monadic o op a) ms
  | direct {guards op t u o a b ms ms'} (hguards : GuardsHold limits guards (.dyadic o op a b))
    (ha : Aligned limits t a ms) (hb : Aligned limits u b ms') :
    Aligned limits (.dyadic guards op t u) (.dyadic o op a b) (ms ++ ms')
  | swapped {guards op t u o a b ms ms'} (hguards : GuardsHold limits guards (.dyadic o op a b))
    (hcomm : op.commutes = true) (hb : Aligned limits t b ms) (ha : Aligned limits u a ms') :
    Aligned limits (.dyadic guards op t u) (.dyadic o op a b) (ms ++ ms')
  | sum {guards terms constant absorber o met paired metConstant adds ms ms'}
    (hguards : GuardsHold limits guards (.sum o met metConstant adds))
    (hcount : met.length ≤ limits.maxTerms) (hpaired : paired.Perm met)
    (hconst : MeetsConstant constant absorber metConstant ms)
    (hterms : AlignedTerms limits terms paired ms') :
    Aligned limits (.sum guards terms constant absorber) (.sum o met metConstant adds) (ms ++ ms')

/-- An alignment of signed terms with as many nodes, each of the same sign as its partner. -/
inductive AlignedTerms (limits : Limits) :
    List (Bool × Template) → List (Bool × Canon) → List (Operand × Slot) → Prop where
  | nil : AlignedTerms limits [] [] []
  | cons {negated t c ts cs ms ms'} (hfirst : Aligned limits t c ms)
    (hrest : AlignedTerms limits ts cs ms') :
    AlignedTerms limits ((negated, t) :: ts) ((negated, c) :: cs) (ms ++ ms')

end

theorem AlignedTerms.length_eq {limits : Limits} {ts : List (Bool × Template)}
    {cs : List (Bool × Canon)} {ms : List (Operand × Slot)} (h : AlignedTerms limits ts cs ms) :
    cs.length = ts.length := by
  induction ts generalizing cs ms with
  | nil =>
    cases h
    rfl
  | cons t ts ih =>
    cases h with
    | cons _ hrest => rw [List.length_cons, List.length_cons, ih hrest]

/-- **A template aligns only with nodes of its shape,** so no definition is missed where only those
of a shape are tried. -/
theorem Aligned.shape_eq {limits : Limits} {t : Template} {c : Canon} {ms : List (Operand × Slot)}
    {key : ShapeKey} (h : Aligned limits t c ms) (ht : t.rootShape? = some key) :
    c.shape? = some key := by
  cases h with
  | register | immediate | const => cases ht
  | monadic | direct | swapped => exact ht
  | sum _ _ hpaired _ hterms =>
    rw [← ht, Canon.shape?, Template.rootShape?, ← hterms.length_eq, hpaired.length_eq]

/-! ## Meetings one after another -/

/-- Whether an operand takes what it meets. -/
def fits (limits : Limits) (op : Operand) : Slot → Bool
  | .node c => fitsRegister limits.xlen op c.info
  | .imm v => op.inRange v

/-- Whether an operand may meet both: nodes with one key, or equal constants. -/
def Slot.agrees : Slot → Slot → Bool
  | .node c, .node d => c.key = d.key
  | .imm v, .imm w => v = w
  | _, _ => false

theorem Slot.agrees_refl (a : Slot) : a.agrees a = true := by
  cases a <;> simp [agrees]

theorem Slot.agrees_symm {a b : Slot} (h : a.agrees b = true) : b.agrees a = true := by
  cases a <;> cases b <;> simp_all [agrees]

theorem Slot.agrees_trans {a b c : Slot} (hab : a.agrees b = true) (hbc : b.agrees c = true) :
    a.agrees c = true := by
  cases a <;> cases b <;> cases c <;> simp_all [agrees]

/-- The first meeting of each operand, after one more. -/
def meet (limits : Limits) (slots : List (String × Slot)) (m : Operand × Slot) :
    Option (List (String × Slot)) :=
  if fits limits m.1 m.2 then
    match slots.lookup m.1.name with
    | none => some ((m.1.name, m.2) :: slots)
    | some before => if before.agrees m.2 then some slots else none
  else none

/-- The first meeting of each operand, after more of them. -/
def meetAll (limits : Limits) (slots : List (String × Slot)) (ms : List (Operand × Slot)) :
    Option (List (String × Slot)) :=
  ms.foldlM (meet limits) slots

variable {limits : Limits}

theorem meetAll_append (slots : List (String × Slot)) (ms ms' : List (Operand × Slot)) :
    meetAll limits slots (ms ++ ms') =
      (meetAll limits slots ms).bind fun slots => meetAll limits slots ms' :=
  List.foldlM_append

theorem meetAll_singleton (slots : List (String × Slot)) (m : Operand × Slot) :
    meetAll limits slots [m] = meet limits slots m := by
  rw [meetAll, List.foldlM_cons]
  simp only [List.foldlM_nil, bind_pure]

theorem slots_meetRegister (op : Operand) (c : Canon) (s : State) :
    (meetRegister limits op c s).map State.slots = meet limits s.slots (op, .node c) := by
  rw [meetRegister, meet, fits]
  split
  · rw [State.meetNode?]
    cases s.slots.lookup op.name with
    | none => rfl
    | some before =>
      cases before with
      | node d =>
        simp only [Slot.agrees, decide_eq_true_eq]
        split <;> rfl
      | imm v => rfl
  · rfl

theorem slots_meetImmediate (op : Operand) (v : Int) (s : State) :
    (meetImmediate op v s).map State.slots = meet limits s.slots (op, .imm v) := by
  rw [meetImmediate, meet, fits]
  split
  · rw [State.meetImm?]
    cases s.slots.lookup op.name with
    | none => rfl
    | some before =>
      cases before with
      | node d => rfl
      | imm w =>
        simp only [Slot.agrees, decide_eq_true_eq]
        split <;> rfl
  · rfl

/-! ## What a search finds -/

/-- The search finds the alignments given, by what the operands have met after them. -/
def Realizes (limits : Limits) (search : State → List State)
    (alignments : List (Operand × Slot) → Prop) : Prop :=
  ∀ s slots, (∃ s' ∈ search s, s'.slots = slots) ↔
    ∃ ms, alignments ms ∧ meetAll limits s.slots ms = some slots

namespace Realizes
variable {search search' : State → List State} {A B : List (Operand × Slot) → Prop}

theorem congr (h : Realizes limits search A) (hsearch : ∀ s, search' s = search s)
    (hiff : ∀ ms, B ms ↔ A ms) : Realizes limits search' B := by
  intro s slots
  rw [hsearch, h s slots]
  simp only [hiff]

theorem nothing : Realizes limits (fun _ => []) fun _ => False := by
  intro s slots
  simp

theorem done (f : State → State) (hf : ∀ s, (f s).slots = s.slots) :
    Realizes limits (fun s => [f s]) (· = []) := by
  intro s slots
  simp [meetAll, hf]

/-- One operand meets something. -/
theorem meeting (f : State → Option State) (m : Operand × Slot)
    (hf : ∀ s, (f s).map State.slots = meet limits s.slots m) :
    Realizes limits (fun s => (f s).toList) (· = [m]) := by
  intro s slots
  simp only [exists_eq_left, meetAll_singleton, ← hf, Option.mem_toList, Option.map_eq_some_iff]

/-- A step that changes nothing of what was met. -/
theorem after (h : Realizes limits search A) (f : State → State)
    (hf : ∀ s, (f s).slots = s.slots) : Realizes limits (fun s => search (f s)) A := by
  intro s slots
  rw [h, hf]

theorem either (h : Realizes limits search A) (h' : Realizes limits search' B) :
    Realizes limits (fun s => search s ++ search' s) fun ms => A ms ∨ B ms := by
  intro s slots
  simp only [List.mem_append, or_and_right, exists_or, h s slots, h' s slots]

/-- One search after another. -/
theorem both (h : Realizes limits search A) (h' : Realizes limits search' B) :
    Realizes limits (fun s => (search s).flatMap search') fun ms =>
      ∃ as bs, A as ∧ B bs ∧ as ++ bs = ms := by
  intro s slots
  constructor
  · rintro ⟨last, hmem, rfl⟩
    obtain ⟨mid, hmid, hlast⟩ := List.mem_flatMap.mp hmem
    obtain ⟨as, has, hmeet⟩ := (h s mid.slots).mp ⟨mid, hmid, rfl⟩
    obtain ⟨bs, hbs, hmeet'⟩ := (h' mid last.slots).mp ⟨last, hlast, rfl⟩
    refine ⟨_, ⟨as, bs, has, hbs, rfl⟩, ?_⟩
    rw [meetAll_append, hmeet]
    exact hmeet'
  · rintro ⟨_, ⟨as, bs, has, hbs, rfl⟩, hmeet⟩
    rw [meetAll_append] at hmeet
    obtain ⟨between, hfirst, hsecond⟩ := Option.bind_eq_some_iff.mp hmeet
    obtain ⟨mid, hmid, rfl⟩ := (h s between).mpr ⟨as, has, hfirst⟩
    obtain ⟨last, hlast, rfl⟩ := (h' mid slots).mpr ⟨bs, hbs, hsecond⟩
    exact ⟨last, List.mem_flatMap.mpr ⟨mid, hmid, hlast⟩, rfl⟩

/-- A search for each of some alternatives. -/
theorem any {α : Type} {l : List α} {search : α → State → List State}
    {A : α → List (Operand × Slot) → Prop} (h : ∀ a ∈ l, Realizes limits (search a) (A a)) :
    Realizes limits (fun s => l.flatMap fun a => search a s) fun ms => ∃ a ∈ l, A a ms := by
  intro s slots
  constructor
  · rintro ⟨last, hmem, hslots⟩
    obtain ⟨a, ha, hlast⟩ := List.mem_flatMap.mp hmem
    obtain ⟨ms, hms, hmeet⟩ := (h a ha s slots).mp ⟨last, hlast, hslots⟩
    exact ⟨ms, ⟨a, ha, hms⟩, hmeet⟩
  · rintro ⟨ms, ⟨a, ha, hms⟩, hmeet⟩
    obtain ⟨last, hlast, hslots⟩ := (h a ha s slots).mpr ⟨ms, hms, hmeet⟩
    exact ⟨last, List.mem_flatMap.mpr ⟨a, ha, hlast⟩, hslots⟩

/-- A search that starts once guards have held. -/
theorem guarded (h : Realizes limits search A) (guards : List Guard) (c : Canon) :
    Realizes limits (fun s => (meetGuards limits guards c s).elim [] search) fun ms =>
      GuardsHold limits guards c ∧ A ms := by
  by_cases hg : GuardsHold limits guards c
  · have hall : guards.all (Guard.holds c.info c.ty limits.xlen) = true := List.all_eq_true.mpr hg
    refine (h.after (fun s => { s with guards := s.guards + guards.length }) fun _ => rfl).congr
      (fun s => ?_) fun ms => and_iff_right hg
    rw [meetGuards, if_pos hall]
    rfl
  · have hall : ¬guards.all (Guard.holds c.info c.ty limits.xlen) = true :=
      fun hall => hg (List.all_eq_true.mp hall)
    refine nothing.congr (fun s => ?_) fun ms => iff_of_false (fun hms => hg hms.1) id
    rw [meetGuards, if_neg hall]
    rfl

end Realizes

/-! ## Terms that are left -/

theorem Used.has_eq (used : Used) (i : Nat) : used.has i = used.getLsbD i := by
  rw [has, BitVec.and_twoPow]
  cases hbit : used.getLsbD i with
  | false => simp
  | true =>
    -- a bit that is set is one of the 64, so its power is not zero
    have hlt : i < 64 := BitVec.lt_of_getLsbD hbit
    refine decide_eq_true fun hzero => ?_
    have hset := congrArg (BitVec.getLsbD · i) hzero
    simp [hlt] at hset

theorem Used.has_zero (i : Nat) : Used.has 0 i = false := by
  rw [has_eq]
  exact BitVec.getLsbD_zero

/-- Using up a term marks its position and no other, among the first 64. -/
theorem Used.has_add (used : Used) {i : Nat} (hi : i < 64) (j : Nat) :
    (used.add i).has j = (used.has j || decide (i = j)) := by
  rw [has_eq, has_eq, add, BitVec.getLsbD_or, BitVec.getLsbD_twoPow, decide_eq_true hi,
    Bool.true_and]

section
variable {α : Type} {used : Used} {x : α} {xs l : List α}

/-- The elements of a list that are not used up, where the first one has the given position. -/
def Used.free (used : Used) : Nat → List α → List α
  | _, [] => []
  | i, a :: as => if used.has i then used.free (i + 1) as else a :: used.free (i + 1) as

theorem Used.free_zero (i : Nat) (l : List α) : Used.free 0 i l = l := by
  induction l generalizing i with
  | nil => rfl
  | cons a as ih => rw [free, has_zero, ih, if_neg Bool.false_ne_true]

theorem Used.free_add_of_lt {i j : Nat} (hi : i < 64) (hij : i < j) :
    (used.add i).free j l = used.free j l := by
  induction l generalizing j with
  | nil => rfl
  | cons a as ih =>
    have hne : decide (i = j) = false := decide_eq_false (Nat.ne_of_lt hij)
    rw [free, free, has_add used hi, hne, Bool.or_false, ih (Nat.lt_succ_of_lt hij)]

/-- An element that is not used up is one of those left, next to those that are left without it. -/
theorem Used.perm_free {i j : Nat} (hx : (x, j) ∈ l.zipIdx i) (hj : j < 64)
    (hfree : used.has j = false) : (used.free i l).Perm (x :: (used.add j).free i l) := by
  induction l generalizing i with
  | nil => cases hx
  | cons a as ih =>
    rw [free, free, has_add used hj]
    rw [List.zipIdx_cons] at hx
    rcases List.mem_cons.mp hx with heq | hmem
    · obtain ⟨rfl, rfl⟩ := Prod.mk.inj heq
      rw [hfree, free_add_of_lt hj (Nat.lt_succ_self j)]
      simp
    · have hij := List.le_snd_of_mem_zipIdx hmem
      have hne : decide (j = i) = false := decide_eq_false (by simp only at hij; omega)
      rw [hne, Bool.or_false]
      split
      · exact ih hmem
      · exact ((ih hmem).cons a).trans (.swap x a _)

theorem Used.mem_free {i : Nat} (h : x ∈ used.free i l) :
    ∃ j, (x, j) ∈ l.zipIdx i ∧ used.has j = false := by
  induction l generalizing i with
  | nil => cases h
  | cons a as ih =>
    rw [free] at h
    rw [List.zipIdx_cons]
    split at h
    · obtain ⟨j, hmem, hfree⟩ := ih h
      exact ⟨j, List.mem_cons_of_mem _ hmem, hfree⟩
    · rename_i hfirst
      rcases List.mem_cons.mp h with rfl | h
      · exact ⟨i, List.mem_cons_self, Bool.eq_false_iff.mpr hfirst⟩
      · obtain ⟨j, hmem, hfree⟩ := ih h
        exact ⟨j, List.mem_cons_of_mem _ hmem, hfree⟩

/-- An arrangement of what is left begins with an element that is not used up, and arranges what is
left without it. Positions beyond 64 would be lost here. -/
theorem Used.cons_perm_free_iff (hlen : l.length ≤ 64) :
    (x :: xs).Perm (used.free 0 l) ↔
      ∃ j, (x, j) ∈ l.zipIdx ∧ used.has j = false ∧ xs.Perm ((used.add j).free 0 l) := by
  have hlt : ∀ {j}, (x, j) ∈ l.zipIdx → j < 64 := by
    intro j hmem
    have hsnd := List.snd_lt_of_mem_zipIdx hmem
    simp only at hsnd
    omega
  constructor
  · intro h
    obtain ⟨j, hmem, hfree⟩ := mem_free (h.subset List.mem_cons_self)
    exact ⟨j, hmem, hfree, (h.trans (perm_free hmem (hlt hmem) hfree)).cons_inv⟩
  · rintro ⟨j, hmem, hfree, hperm⟩
    exact (hperm.cons x).trans (perm_free hmem (hlt hmem) hfree).symm

end

theorem realizes_meetConstant (constant : Int) (absorber : Option Operand) (met : Int) :
    Realizes limits (fun s => (meetConstant constant absorber met s).toList)
      (MeetsConstant constant absorber met) := by
  cases absorber with
  | none =>
    by_cases heq : met = constant
    · refine (Realizes.done id fun _ => rfl).congr (fun s => ?_) fun ms => ?_
      · rw [meetConstant, if_pos heq]
        rfl
      · subst heq
        exact ⟨fun h => by cases h; rfl, fun h => h ▸ .equal⟩
    · refine Realizes.nothing.congr (fun s => ?_) fun ms => ?_
      · rw [meetConstant, if_neg heq]
        rfl
      · exact iff_of_false (fun h => by cases h; exact heq rfl) id
  | some op =>
    by_cases heq : met = constant
    · refine Realizes.nothing.congr (fun s => ?_) fun ms => ?_
      · rw [meetConstant, if_pos heq]
        rfl
      · exact iff_of_false (fun h => by cases h with | absorbed hne => exact hne heq) id
    · refine (Realizes.meeting _ _ (slots_meetImmediate op (met - constant))).congr (fun s => ?_)
        fun ms => ?_
      · rw [meetConstant, if_neg heq]
      · exact ⟨fun h => by cases h; rfl, fun h => h ▸ .absorbed heq⟩

theorem elim_nil {α β : Type} (x : Option α) : x.elim [] (fun _ => ([] : List β)) = [] := by
  cases x <;> rfl

/-! ## The search for each kind of part

What is found for an operator is found for its operands, which are met after it. -/

section Parts
variable (guards : List Guard) (c : Canon)

theorem realizes_register (op : Operand) : Realizes limits (align limits (.register guards op) c)
    (Aligned limits (.register guards op) c) := by
  refine ((Realizes.meeting _ _ (slots_meetRegister op c)).guarded guards c).congr (fun s => ?_)
    fun ms => ?_
  · rw [align_register]
  · constructor
    · intro h
      cases h with
      | register hg => exact ⟨hg, rfl⟩
    · rintro ⟨hg, rfl⟩
      exact .register hg

theorem realizes_immediate (op : Operand) : Realizes limits (align limits (.immediate guards op) c)
    (Aligned limits (.immediate guards op) c) := by
  cases hc : c.constant? with
  | none =>
    refine Realizes.nothing.congr (fun s => ?_) fun ms => ?_
    · rw [align, hc]
      cases meetGuards limits guards c s <;> rfl
    · exact iff_of_false (fun h => by cases h with | immediate _ h => simp [hc] at h) id
  | some v =>
    have hmeet : ∀ s, ((meetImmediate op v s).map (·.absorb c)).map State.slots =
        meet limits s.slots (op, .imm v) := by
      intro s
      rw [← slots_meetImmediate, Option.map_map]
      rfl
    refine ((Realizes.meeting _ _ hmeet).guarded guards c).congr (fun s => ?_) fun ms => ?_
    · rw [align, hc]
      cases meetGuards limits guards c s <;> rfl
    · constructor
      · intro h
        cases h with
        | immediate hg h =>
          obtain rfl := Option.some.inj (hc.symm.trans h)
          exact ⟨hg, rfl⟩
      · rintro ⟨hg, rfl⟩
        exact .immediate hg hc

theorem realizes_const (value : Int) : Realizes limits (align limits (.const guards value) c)
    (Aligned limits (.const guards value) c) := by
  by_cases hc : c.constant? = some value
  · refine ((Realizes.done (·.absorb c) fun _ => rfl).guarded guards c).congr (fun s => ?_)
      fun ms => ?_
    · rw [align, hc]
      cases meetGuards limits guards c s with
      | none => rfl
      | some s => exact if_pos rfl
    · constructor
      · intro h
        cases h with
        | const hg _ => exact ⟨hg, rfl⟩
      · rintro ⟨hg, rfl⟩
        exact .const hg hc
  · refine Realizes.nothing.congr (fun s => ?_) fun ms => ?_
    · rw [align]
      split
      · rename_i met _ hmet
        exact if_neg fun heq : met = value => hc (heq ▸ hmet)
      · rfl
    · exact iff_of_false (fun h => by cases h with | const _ h => exact hc h) id

theorem realizes_monadic {t : Template} (op : MonadicOp)
    (ht : ∀ a, Realizes limits (align limits t a) (Aligned limits t a)) :
    Realizes limits (align limits (.monadic guards op t) c)
      (Aligned limits (.monadic guards op t) c) := by
  cases c with
  | var | const | dyadic | select | sum =>
    refine Realizes.nothing.congr (fun s => ?_) fun ms => iff_of_false (fun h => by cases h) id
    rw [align]
    intro _ _ _ _ _ h
    cases h
  | monadic o op' a =>
    by_cases hop : op' = op
    · subst hop
      refine (((ht a).after (·.absorb (.monadic o op' a))
        fun _ => rfl).guarded guards (.monadic o op' a)).congr (fun s => ?_) fun ms => ?_
      · simp only [align_monadic, if_true]
      · constructor
        · intro h
          cases h with
          | monadic hg ha => exact ⟨hg, ha⟩
        · rintro ⟨hg, ha⟩
          exact .monadic hg ha
    · refine Realizes.nothing.congr (fun s => ?_) fun ms =>
        iff_of_false (fun h => by cases h; exact hop rfl) id
      simp only [align_monadic, hop, if_false, elim_nil]

theorem realizes_dyadic {t u : Template} (op : DyadicOp)
    (ht : ∀ a, Realizes limits (align limits t a) (Aligned limits t a))
    (hu : ∀ b, Realizes limits (align limits u b) (Aligned limits u b)) :
    Realizes limits (align limits (.dyadic guards op t u) c)
      (Aligned limits (.dyadic guards op t u) c) := by
  cases c with
  | var | const | monadic | select | sum =>
    refine Realizes.nothing.congr (fun s => ?_) fun ms => iff_of_false (fun h => by cases h) id
    rw [align]
    intro _ _ _ _ _ _ h
    cases h
  | dyadic o op' a b =>
    by_cases hop : op' = op
    · subst hop
      have hdirect := (ht a).both (hu b)
      have hswapped := (ht b).both (hu a)
      by_cases hcomm : op'.commutes = true
      · refine (((hdirect.either hswapped).after (·.absorb (.dyadic o op' a b))
          fun _ => rfl).guarded guards (.dyadic o op' a b)).congr (fun s => ?_) fun ms => ?_
        · simp only [align_dyadic, if_true, hcomm]
        · constructor
          · intro h
            cases h with
            | direct hg ha hb => exact ⟨hg, .inl ⟨_, _, ha, hb, rfl⟩⟩
            | swapped hg _ hb ha => exact ⟨hg, .inr ⟨_, _, hb, ha, rfl⟩⟩
          · rintro ⟨hg, ⟨_, _, ha, hb, rfl⟩ | ⟨_, _, hb, ha, rfl⟩⟩
            · exact .direct hg ha hb
            · exact .swapped hg hcomm hb ha
      · refine ((hdirect.after (·.absorb (.dyadic o op' a b)) fun _ => rfl).guarded guards
          (.dyadic o op' a b)).congr (fun s => ?_) fun ms => ?_
        · simp only [align_dyadic, if_true, hcomm, if_false, Bool.false_eq_true]
        · constructor
          · intro h
            cases h with
            | direct hg ha hb => exact ⟨hg, _, _, ha, hb, rfl⟩
            | swapped _ hcomm' => exact absurd hcomm' hcomm
          · rintro ⟨hg, _, _, ha, hb, rfl⟩
            exact .direct hg ha hb
    · refine Realizes.nothing.congr (fun s => ?_) fun ms =>
        iff_of_false (fun h => by cases h <;> exact hop rfl) id
      simp only [align_dyadic, hop, if_false, elim_nil]

theorem realizes_sum {terms : List (Bool × Template)} (constant : Int) (absorber : Option Operand)
    (hterms : ∀ met, met.length = terms.length ∧ met.length ≤ limits.maxTerms →
      Realizes limits (alignTerms limits terms met 0) fun ms =>
        ∃ paired, paired.Perm met ∧ AlignedTerms limits terms paired ms) :
    Realizes limits (align limits (.sum guards terms constant absorber) c)
      (Aligned limits (.sum guards terms constant absorber) c) := by
  cases c with
  | var | const | monadic | dyadic | select =>
    refine Realizes.nothing.congr (fun s => ?_) fun ms => iff_of_false (fun h => by cases h) id
    rw [align]
    intro _ _ _ _ _ _ h
    cases h
  | sum o met metConstant adds =>
    by_cases hlen : met.length = terms.length ∧ met.length ≤ limits.maxTerms
    · have hterms := (hterms met hlen).after (·.absorb (.sum o met metConstant adds)) fun _ => rfl
      refine (((realizes_meetConstant constant absorber metConstant).both hterms).guarded guards
        (.sum o met metConstant adds)).congr (fun s => ?_) fun ms => ?_
      · simp only [align_sum, if_pos hlen]
      · constructor
        · intro h
          cases h with
          | sum hg _ hpaired hconst hterms =>
            exact ⟨hg, _, _, hconst, ⟨_, hpaired, hterms⟩, rfl⟩
        · rintro ⟨hg, _, _, hconst, ⟨_, hpaired, hterms⟩, rfl⟩
          exact .sum hg hlen.2 hpaired hconst hterms
    · refine Realizes.nothing.congr (fun s => ?_) fun ms => iff_of_false (fun h => ?_) id
      · simp only [align_sum, if_neg hlen, elim_nil]
      · cases h with
        | sum _ hcount hpaired _ hterms =>
          exact hlen ⟨hpaired.length_eq ▸ hterms.length_eq, hcount⟩

end Parts

mutual

/-- **The search finds exactly the alignments of a template.** -/
theorem realizes_align (limits : Limits) : (t : Template) → (c : Canon) →
    Realizes limits (align limits t c) (Aligned limits t c)
  | .register guards op, c => realizes_register guards c op
  | .immediate guards op, c => realizes_immediate guards c op
  | .const guards value, c => realizes_const guards c value
  | .monadic guards op t, c => realizes_monadic guards c op (realizes_align limits t)
  | .dyadic guards op t u, c =>
    realizes_dyadic guards c op (realizes_align limits t) (realizes_align limits u)
  | .sum guards terms constant absorber, c => by
    refine realizes_sum guards c constant absorber fun met hlen => ?_
    -- no mark is lost, since the number of terms is capped by the width of the mask
    have hterms := realizes_alignTerms limits terms met 0 (Nat.le_trans hlen.2 limits.capped)
    rw [Used.free_zero] at hterms
    exact hterms hlen.1

theorem realizes_alignTerms (limits : Limits) : (ts : List (Bool × Template)) →
    (met : List (Bool × Canon)) → (used : Used) → met.length ≤ 64 →
    (used.free 0 met).length = ts.length →
    Realizes limits (alignTerms limits ts met used) fun ms =>
      ∃ paired, paired.Perm (used.free 0 met) ∧ AlignedTerms limits ts paired ms
  | [], met, used, _, hlen => by
    refine (Realizes.done id fun _ => rfl).congr (fun s => ?_) fun ms => ?_
    · rw [alignTerms]
      rfl
    · rw [List.eq_nil_of_length_eq_zero hlen]
      constructor
      · rintro ⟨paired, -, h⟩
        cases h
        rfl
      · rintro rfl
        exact ⟨[], .refl _, .nil⟩
  | (negated, t) :: ts, met, used, hcapped, hlen => by
    have hpick : ∀ pick ∈ met.zipIdx, Realizes limits
        (fun s => if used.has pick.2 ∨ pick.1.1 ≠ negated then []
          else (align limits t pick.1.2 s).flatMap (alignTerms limits ts met (used.add pick.2)))
        (fun ms => (used.has pick.2 = false ∧ pick.1.1 = negated) ∧
          ∃ as bs, Aligned limits t pick.1.2 as ∧
            (∃ paired, paired.Perm ((used.add pick.2).free 0 met) ∧
              AlignedTerms limits ts paired bs) ∧ as ++ bs = ms) := by
      rintro ⟨⟨sign, c⟩, j⟩ hmem
      by_cases hopen : used.has j = false ∧ sign = negated
      · have hleft : ((used.add j).free 0 met).length = ts.length := by
          have hperm := (Used.cons_perm_free_iff hcapped).mpr ⟨j, hmem, hopen.1, .refl _⟩
          have hcount := hperm.length_eq
          simp only [List.length_cons] at hcount hlen
          omega
        refine ((realizes_align limits t c).both
          (realizes_alignTerms limits ts met (used.add j) hcapped hleft)).congr (fun s => ?_)
          fun ms => and_iff_right hopen
        exact if_neg (by simp [hopen])
      · refine Realizes.nothing.congr (fun s => if_pos ?_) fun ms =>
          iff_of_false (fun h => hopen h.1) id
        cases hused : used.has j <;> simp_all
    refine (Realizes.any hpick).congr (fun s => by rw [alignTerms]) fun ms => ?_
    constructor
    · rintro ⟨paired, hperm, h⟩
      cases h with
      | cons hfirst hrest =>
        obtain ⟨j, hmem, hfree, hperm⟩ := (Used.cons_perm_free_iff hcapped).mp hperm
        exact ⟨_, hmem, ⟨hfree, rfl⟩, _, _, hfirst, ⟨_, hperm, hrest⟩, rfl⟩
    · rintro ⟨⟨⟨sign, c⟩, j⟩, hmem, ⟨hfree, rfl⟩, _, _, hfirst, ⟨paired, hperm, hrest⟩, rfl⟩
      exact ⟨_, (Used.cons_perm_free_iff hcapped).mpr ⟨j, hmem, hfree, hperm⟩,
        .cons hfirst hrest⟩

end

/-! ## Meetings taken together -/

theorem meet_eq_some {slots slots' : List (String × Slot)} {m : Operand × Slot}
    (h : meet limits slots m = some slots') :
    fits limits m.1 m.2 = true ∧
      ((slots.lookup m.1.name = none ∧ slots' = (m.1.name, m.2) :: slots) ∨
        ∃ before, slots.lookup m.1.name = some before ∧ before.agrees m.2 = true ∧
          slots' = slots) := by
  rw [meet] at h
  split at h
  · rename_i hfits
    refine ⟨hfits, ?_⟩
    split at h
    · rename_i hnone
      exact .inl ⟨hnone, (Option.some.inj h).symm⟩
    · rename_i before hbefore
      split at h
      · rename_i hagree
        exact .inr ⟨before, hbefore, hagree, (Option.some.inj h).symm⟩
      · cases h
  · cases h

/-- An operand keeps what it has met first. -/
theorem lookup_meetAll {slots slots' : List (String × Slot)} {ms : List (Operand × Slot)}
    (h : meetAll limits slots ms = some slots') (name : String) :
    slots'.lookup name =
      (slots.lookup name).or ((ms.find? (·.1.name = name)).map Prod.snd) := by
  induction ms generalizing slots with
  | nil =>
    obtain rfl := Option.some.inj h
    simp
  | cons m ms ih =>
    rw [meetAll, List.foldlM_cons] at h
    obtain ⟨next, hmeet, hrest⟩ := Option.bind_eq_some_iff.mp h
    rw [ih hrest, List.find?_cons]
    obtain ⟨-, ⟨hnone, rfl⟩ | ⟨before, hbefore, -, rfl⟩⟩ := meet_eq_some hmeet
    · rw [NameMap.lookup_cons]
      by_cases hname : m.1.name = name
      · subst hname
        simp [hnone]
      · simp [hname, Ne.symm hname]
    · by_cases hname : m.1.name = name
      · subst hname
        simp [hbefore]
      · simp [hname]

/-- **Meetings can be had one after another exactly if all fit their operands, and those of one name
agree with each other and with what was met before.** -/
theorem meetAll_isSome_iff {slots : List (String × Slot)} {ms : List (Operand × Slot)} :
    (∃ slots', meetAll limits slots ms = some slots') ↔
      (∀ m ∈ ms, fits limits m.1 m.2 = true) ∧
      (∀ m ∈ ms, ∀ before, slots.lookup m.1.name = some before → before.agrees m.2 = true) ∧
      ms.Pairwise fun m m' => m.1.name = m'.1.name → m.2.agrees m'.2 = true := by
  induction ms generalizing slots with
  | nil => simp [meetAll]
  | cons m ms ih =>
    have hsplit : (∃ slots', meetAll limits slots (m :: ms) = some slots') ↔
        ∃ next, meet limits slots m = some next ∧
          ∃ slots', meetAll limits next ms = some slots' := by
      simp only [meetAll, List.foldlM_cons, Option.bind_eq_bind, Option.bind_eq_some_iff]
      exact ⟨fun ⟨s, n, h, h'⟩ => ⟨n, h, s, h'⟩, fun ⟨n, h, s, h'⟩ => ⟨s, n, h, h'⟩⟩
    simp only [hsplit, ih, List.forall_mem_cons, List.pairwise_cons]
    constructor
    · rintro ⟨next, hmeet, hfits, hbefore, hpair⟩
      obtain ⟨hfit, ⟨hnone, rfl⟩ | ⟨first, hfirst, hagree, rfl⟩⟩ := meet_eq_some hmeet
      · refine ⟨⟨hfit, hfits⟩, ⟨by simp [hnone], fun m' hm' before hb => ?_⟩, ?_, hpair⟩
        · refine hbefore m' hm' before ?_
          rw [NameMap.lookup_cons, if_neg, hb]
          intro heq
          rw [heq] at hb
          cases hnone.symm.trans hb
        · intro m' hm' heq
          exact hbefore m' hm' m.2 (by rw [NameMap.lookup_cons, if_pos heq.symm])
      · refine ⟨⟨hfit, hfits⟩, ⟨fun before hb => ?_, hbefore⟩, fun m' hm' heq => ?_, hpair⟩
        · obtain rfl := Option.some.inj (hfirst.symm.trans hb)
          exact hagree
        · exact Slot.agrees_trans (Slot.agrees_symm hagree)
            (hbefore m' hm' first (heq ▸ hfirst))
    · rintro ⟨⟨hfit, hfits⟩, ⟨hagree, hbefore⟩, hhead, hpair⟩
      rw [meet, if_pos hfit]
      cases hlookup : slots.lookup m.1.name with
      | none =>
        refine ⟨_, rfl, hfits, fun m' hm' before hb => ?_, hpair⟩
        rw [NameMap.lookup_cons] at hb
        split at hb
        · rename_i heq
          exact Option.some.inj hb ▸ hhead m' hm' heq.symm
        · exact hbefore m' hm' before hb
      | some first => exact ⟨slots, if_pos (hagree first hlookup), hfits, hbefore, hpair⟩

end CustomIsa.Match
