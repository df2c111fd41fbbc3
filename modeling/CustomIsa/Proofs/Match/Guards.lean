import CustomIsa.Proofs.Match.Absorption
import CustomIsa.Proofs.Match.Rounding
import CustomIsa.Proofs.Template.Annotations
import CustomIsa.Proofs.Template.Meaning
/-! # Guards are enforced

A template that matches a node pairs each part of its text with a node (`Sexp.Meets`), and every
guard of a part is checked on the node of the part. Additive operators without guards that stand in
sums have no node of their own, and neither have literals and immediates there, which go into the
constant.

The score of a candidate counts the guards that held. It accounts for all guards of the text but
those that are written on an immediate that is added in a sum, which are never checked
(`Matcher.guards_enforced`). -/
namespace CustomIsa
namespace Sexp
open Match Template

/-- Guards, each with the node that it is checked on. -/
def checksAt (guards : List Guard) (c : Canon) : List (Guard × Canon) := guards.map (·, c)

mutual

/-- An S-expression is matched with a node, where operands may meet what `binds` says. Listed are
the guards that are checked, each with the node of its part. -/
inductive Meets (d : Definition) (binds : Operand → Slot → Prop) :
    Sexp → Canon → List (Guard × Canon) → Prop where
  | literal {name guards v c} (hname : literal? name = some v) (hc : c.constant? = some v) :
    Meets d binds (.atom name guards) c (checksAt guards c)
  | register {name guards op c} (hname : literal? name = none) (hop : d.operand? name = some op)
    (hkind : op.kind = .register) (hbinds : binds op (.node c)) :
    Meets d binds (.atom name guards) c (checksAt guards c)
  | immediate {name guards op v c} (hname : literal? name = none) (hop : d.operand? name = some op)
    (hkind : op.kind = .immediate) (hc : c.constant? = some v) (hbinds : binds op (.imm v)) :
    Meets d binds (.atom name guards) c (checksAt guards c)
  | monadic {head guards s op o a checks} (hhead : Head.ofName? head = some (.monadic op))
    (ha : Meets d binds s a checks) :
    Meets d binds (.app head guards [s]) (.monadic o op a)
      (checksAt guards (.monadic o op a) ++ checks)
  | direct {head guards s s' op o a b checks checks'}
    (hhead : Head.ofName? head = some (.dyadic op)) (ha : Meets d binds s a checks)
    (hb : Meets d binds s' b checks') :
    Meets d binds (.app head guards [s, s']) (.dyadic o op a b)
      (checksAt guards (.dyadic o op a b) ++ (checks ++ checks'))
  | swapped {head guards s s' op o a b checks checks'}
    (hhead : Head.ofName? head = some (.dyadic op)) (hcomm : op.commutes = true)
    (hb : Meets d binds s b checks) (ha : Meets d binds s' a checks') :
    Meets d binds (.app head guards [s, s']) (.dyadic o op a b)
      (checksAt guards (.dyadic o op a b) ++ (checks ++ checks'))
  | sum {head guards args op o met paired offset adds checks}
    (hhead : Head.ofName? head = some (.additive op)) (hpaired : paired.Perm met)
    (hparts : MeetsParts d binds op false 0 args paired offset checks) :
    Meets d binds (.app head guards args) (.sum o met offset adds)
      (checksAt guards (.sum o met offset adds) ++ checks)
  | single {head guards args op c checks} (hhead : Head.ofName? head = some (.additive op))
    (hparts : MeetsParts d binds op false 0 args [(false, c)] 0 checks) :
    Meets d binds (.app head guards args) c (checksAt guards c ++ checks)

/-- An S-expression in a sum is matched with signed terms and a part of the constant: with one term
for itself, with its value if it is a literal or an immediate, and as its operands are if it is an
additive operator without guards. -/
inductive MeetsPart (d : Definition) (binds : Operand → Slot → Prop) :
    Bool → Sexp → List (Bool × Canon) → Int → List (Guard × Canon) → Prop where
  | literal {negated name v} (hname : literal? name = some v) :
    MeetsPart d binds negated (.atom name []) [] (withSign negated v) []
  | immediate {name guards op v} (hop : d.operand? name = some op) (hkind : op.kind = .immediate)
    (hbinds : binds op (.imm v)) : MeetsPart d binds false (.atom name guards) [] v []
  | nested {negated head args op terms offset checks}
    (hhead : Head.ofName? head = some (.additive op))
    (hparts : MeetsParts d binds op negated 0 args terms offset checks) :
    MeetsPart d binds negated (.app head [] args) terms offset checks
  | term {negated s c checks} (hplain : s.namesImmediate d = false)
    (h : Meets d binds s c checks) : MeetsPart d binds negated s [(negated, c)] 0 checks

/-- The operands of an additive operator from a position on are matched with signed terms and a part
of the constant. -/
inductive MeetsParts (d : Definition) (binds : Operand → Slot → Prop) :
    AdditiveOp → Bool → Nat → List Sexp → List (Bool × Canon) → Int → List (Guard × Canon) →
    Prop where
  | nil {op negated position} : MeetsParts d binds op negated position [] [] 0 []
  | cons {op negated position s ss terms terms' offset offset' checks checks'}
    (hfirst : MeetsPart d binds (negated ^^ op.negates position) s terms offset checks)
    (hrest : MeetsParts d binds op negated (position + 1) ss terms' offset' checks') :
    MeetsParts d binds op negated position (s :: ss) (terms ++ terms') (offset + offset')
      (checks ++ checks')

end

/-! ## All guards but those on immediates in sums -/

section
variable {d : Definition} {binds : Operand → Slot → Prop}

theorem map_fst_checksAt (guards : List Guard) (c : Canon) :
    (checksAt guards c).map Prod.fst = guards := by
  rw [checksAt, List.map_map]
  exact List.map_id guards

theorem waivedIn_of_plain {s : Sexp} (h : s.namesImmediate d = false) (inSum : Bool) :
    s.waivedIn d inSum = s.waivedIn d false := by
  cases s with
  | atom name guards => simp [waivedIn, h]
  | app head guards args => rw [waivedIn, waivedIn]

mutual

/-- A guard is checked as often as it is written, but for those on an immediate in a sum. -/
theorem Meets.count (g : Guard) : ∀ {s : Sexp} {c : Canon} {checks : List (Guard × Canon)},
    s.Meets d binds c checks →
    (checks.map Prod.fst).count g + (s.waivedIn d false).count g = s.annotations.count g
  | _, _, _, .literal _ _ | _, _, _, .register _ _ _ _ | _, _, _, .immediate _ _ _ _ _ => by
    simp [map_fst_checksAt, waivedIn, annotations]
  | _, _, _, .monadic hhead ha => by
    have hplain := not_isAdditive_of_ofName (Head.ofName_monadic.mp hhead).1
    have hcount := ha.count g
    simp only [waivedIn, hplain, waivedOfAll, annotations, annotationsOfAll, List.map_append,
      map_fst_checksAt, List.count_append, List.append_nil]
    omega
  | _, _, _, .direct hhead ha hb | _, _, _, .swapped hhead _ ha hb => by
    have hplain := not_isAdditive_of_ofName (Head.ofName_dyadic.mp hhead).1
    have hcount := ha.count g
    have hcount' := hb.count g
    simp only [waivedIn, hplain, waivedOfAll, annotations, annotationsOfAll, List.map_append,
      map_fst_checksAt, List.count_append, List.append_nil]
    omega
  | _, _, _, .sum hhead _ hparts | _, _, _, .single hhead hparts => by
    have hcount := hparts.count g
    simp only [waivedIn, isAdditive_of_ofName (Head.ofName_additive.mp hhead), annotations,
      List.map_append, map_fst_checksAt, List.count_append]
    omega

theorem MeetsPart.count (g : Guard) : ∀ {negated : Bool} {s : Sexp} {terms : List (Bool × Canon)}
    {offset : Int} {checks : List (Guard × Canon)},
    MeetsPart d binds negated s terms offset checks →
    (checks.map Prod.fst).count g + (s.waivedIn d true).count g = s.annotations.count g
  | _, _, _, _, _, .literal _ => by simp [waivedIn, annotations]
  | _, _, _, _, _, .immediate hop hkind _ => by
    simp [waivedIn, annotations, namesImmediate, hop, hkind]
  | _, _, _, _, _, .nested hhead hparts => by
    rw [waivedIn, isAdditive_of_ofName (Head.ofName_additive.mp hhead), annotations,
      List.nil_append]
    exact hparts.count g
  | _, _, _, _, _, .term hplain h => by
    rw [waivedIn_of_plain hplain]
    exact h.count g

theorem MeetsParts.count (g : Guard) : ∀ {op : AdditiveOp} {negated : Bool} {position : Nat}
    {ss : List Sexp} {terms : List (Bool × Canon)} {offset : Int} {checks : List (Guard × Canon)},
    MeetsParts d binds op negated position ss terms offset checks →
    (checks.map Prod.fst).count g + (waivedOfAll d true ss).count g =
      (annotationsOfAll ss).count g
  | _, _, _, _, _, _, _, .nil => by simp [waivedOfAll, annotationsOfAll]
  | _, _, _, _, _, _, _, .cons hfirst hrest => by
    have hcount := hfirst.count g
    have hcount' := hrest.count g
    simp only [waivedOfAll, annotationsOfAll, List.map_append, List.count_append]
    omega

end

end

end Sexp

/-! ## The number of guards that a search checks -/

namespace Template

mutual

/-- The number of guards in a template. -/
def guardCount : Template → Nat
  | .register guards _ | .immediate guards _ | .const guards _ => guards.length
  | .monadic guards _ a => guards.length + a.guardCount
  | .dyadic guards _ a b => guards.length + (a.guardCount + b.guardCount)
  | .sum guards terms _ _ => guards.length + guardCountOfTerms terms

/-- The number of guards in signed terms. -/
def guardCountOfTerms : List (Bool × Template) → Nat
  | [] => 0
  | (_, t) :: ts => t.guardCount + guardCountOfTerms ts

end

theorem guardCount_addGuards (t : Template) (more : List Guard) :
    (t.addGuards more).guardCount = more.length + t.guardCount := by
  cases t <;> simp only [addGuards, guardCount, List.length_append] <;> omega

theorem guardCountOfTerms_append (ts us : List (Bool × Template)) :
    guardCountOfTerms (ts ++ us) = guardCountOfTerms ts + guardCountOfTerms us := by
  induction ts with
  | nil => rw [List.nil_append, guardCountOfTerms, Nat.zero_add]
  | cons t ts ih => rw [List.cons_append, guardCountOfTerms, ih, guardCountOfTerms, Nat.add_assoc]

/-- What the parts of a sum add to its terms, if the immediate among them is `v`. -/
def Gathered.offset (v : Int) (g : Gathered) : Int :=
  g.constant + if g.absorber.isSome then v else 0

end Template

namespace Match
variable {limits : Limits}

theorem guards_meetGuards {guards : List Guard} {c : Canon} {s s' : State}
    (h : meetGuards limits guards c s = some s') : s'.guards = s.guards + guards.length := by
  rw [meetGuards] at h
  split at h
  · obtain rfl := Option.some.inj h
    rfl
  · cases h

theorem guards_meetRegister {op : Operand} {c : Canon} {s s' : State}
    (h : meetRegister limits op c s = some s') : s'.guards = s.guards := by
  obtain rfl | rfl := meetRegister_cases h <;> rfl

theorem guards_meetImmediate {op : Operand} {v : Int} {s s' : State}
    (h : meetImmediate op v s = some s') : s'.guards = s.guards := by
  obtain rfl | rfl := meetImmediate_cases h <;> rfl

theorem guards_meetConstant {constant met : Int} {absorber : Option Operand} {s s' : State}
    (h : meetConstant constant absorber met s = some s') : s'.guards = s.guards := by
  obtain rfl | ⟨op, v, rfl⟩ := meetConstant_cases h <;> rfl

mutual

/-- **Every alignment that the search finds has counted all guards of the template.** -/
theorem guards_align (limits : Limits) : (t : Template) → ∀ {c : Canon} {s s' : State},
    s' ∈ align limits t c s → s'.guards = s.guards + t.guardCount
  | .register guards op, c, s, s', h => by
    obtain ⟨next, hguards, h⟩ := mem_align_register h
    rw [Template.guardCount, guards_meetRegister h, guards_meetGuards hguards]
  | .immediate guards op, c, s, s', h => by
    obtain ⟨next, v, mid, hguards, -, hmid, rfl⟩ := mem_align_immediate h
    rw [Template.guardCount, ← guards_meetGuards hguards, ← guards_meetImmediate hmid]
    rfl
  | .const guards value, c, s, s', h => by
    obtain ⟨next, hguards, -, rfl⟩ := mem_align_const h
    rw [Template.guardCount, ← guards_meetGuards hguards]
    rfl
  | .monadic guards op t, c, s, s', h => by
    obtain ⟨o, a, next, rfl, hguards, h⟩ := mem_align_monadic h
    rw [Template.guardCount, guards_align limits t h, ← Nat.add_assoc, ← guards_meetGuards hguards]
    rfl
  | .dyadic guards op t u, c, s, s', h => by
    obtain ⟨o, a, b, next, rfl, hguards, x, y, mid, hxy, hmid, h⟩ := mem_align_dyadic h
    rw [Template.guardCount, guards_align limits u h, guards_align limits t hmid, ← Nat.add_assoc,
      ← Nat.add_assoc, ← guards_meetGuards hguards]
    rfl
  | .sum guards terms constant absorber, c, s, s', h => by
    obtain ⟨o, met, metConstant, adds, next, mid, rfl, hguards, hmid, -, h⟩ := mem_align_sum h
    rw [Template.guardCount, guards_alignTerms limits terms h, ← Nat.add_assoc,
      ← guards_meetGuards hguards, ← guards_meetConstant hmid]
    rfl

theorem guards_alignTerms (limits : Limits) : (ts : List (Bool × Template)) →
    ∀ {met : List (Bool × Canon)} {used : Used} {s s' : State},
      s' ∈ alignTerms limits ts met used s → s'.guards = s.guards + Template.guardCountOfTerms ts
  | [], met, used, s, s', h => by
    rw [alignTerms] at h
    obtain rfl := List.mem_singleton.mp h
    rfl
  | (negated, t) :: ts, met, used, s, s', h => by
    obtain ⟨c, position, mid, -, -, hmid, h⟩ := mem_alignTerms_cons h
    rw [Template.guardCountOfTerms, guards_alignTerms limits ts h, guards_align limits t hmid,
      Nat.add_assoc]

end

/-! ## What alignments enforce -/

/-- So many checks, all of which hold. -/
structure Passed (limits : Limits) (count : Nat) (checks : List (Guard × Canon)) : Prop where
  holds : ∀ check ∈ checks, check.1.holds check.2.info check.2.ty limits.xlen = true
  length_eq : checks.length = count

theorem Passed.append {m n : Nat} {checks checks' : List (Guard × Canon)}
    (h : Passed limits m checks) (h' : Passed limits n checks') :
    Passed limits (m + n) (checks ++ checks') := by
  refine ⟨List.forall_mem_append.mpr ⟨h.holds, h'.holds⟩, ?_⟩
  rw [List.length_append, h.length_eq, h'.length_eq]

theorem passed_nil : Passed limits 0 [] := ⟨by simp, rfl⟩

theorem passed_checksAt {guards : List Guard} {c : Canon} (h : GuardsHold limits guards c) :
    Passed limits guards.length (Sexp.checksAt guards c) := by
  refine ⟨fun check hcheck => ?_, List.length_map _⟩
  obtain ⟨g, hg, rfl⟩ := List.mem_map.mp hcheck
  exact h g hg

theorem guardsHold_append {guards guards' : List Guard} {c : Canon} :
    GuardsHold limits (guards ++ guards') c ↔
      GuardsHold limits guards c ∧ GuardsHold limits guards' c :=
  List.forall_mem_append

theorem aligned_addGuards {t : Template} {more : List Guard} {c : Canon}
    {ms : List (Operand × Slot)} (h : Aligned limits (t.addGuards more) c ms) :
    Aligned limits t c ms ∧ GuardsHold limits more c := by
  cases t with
  | register guards op =>
    cases h with
    | register hguards =>
      obtain ⟨hguards, hmore⟩ := guardsHold_append.mp hguards
      exact ⟨.register hguards, hmore⟩
  | immediate guards op =>
    cases h with
    | immediate hguards hc =>
      obtain ⟨hguards, hmore⟩ := guardsHold_append.mp hguards
      exact ⟨.immediate hguards hc, hmore⟩
  | const guards value =>
    cases h with
    | const hguards hc =>
      obtain ⟨hguards, hmore⟩ := guardsHold_append.mp hguards
      exact ⟨.const hguards hc, hmore⟩
  | monadic guards op a =>
    cases h with
    | monadic hguards ha =>
      obtain ⟨hguards, hmore⟩ := guardsHold_append.mp hguards
      exact ⟨.monadic hguards ha, hmore⟩
  | dyadic guards op a b =>
    cases h with
    | direct hguards ha hb =>
      obtain ⟨hguards, hmore⟩ := guardsHold_append.mp hguards
      exact ⟨.direct hguards ha hb, hmore⟩
    | swapped hguards hcomm hb ha =>
      obtain ⟨hguards, hmore⟩ := guardsHold_append.mp hguards
      exact ⟨.swapped hguards hcomm hb ha, hmore⟩
  | sum guards terms constant absorber =>
    cases h with
    | sum hguards hcount hpaired hconst hterms =>
      obtain ⟨hguards, hmore⟩ := guardsHold_append.mp hguards
      exact ⟨.sum hguards hcount hpaired hconst hterms, hmore⟩

theorem alignedTerms_append {ts us : List (Bool × Template)} {cs : List (Bool × Canon)}
    {ms : List (Operand × Slot)} (h : AlignedTerms limits (ts ++ us) cs ms) :
    ∃ cs₁ cs₂ ms₁ ms₂, cs = cs₁ ++ cs₂ ∧ ms = ms₁ ++ ms₂ ∧ AlignedTerms limits ts cs₁ ms₁ ∧
      AlignedTerms limits us cs₂ ms₂ := by
  induction ts generalizing cs ms with
  | nil => exact ⟨[], cs, [], ms, rfl, rfl, .nil, h⟩
  | cons t ts ih =>
    cases h with
    | cons hfirst hrest =>
      obtain ⟨cs₁, cs₂, ms₁, ms₂, rfl, rfl, hts, hus⟩ := ih hrest
      exact ⟨_ :: cs₁, cs₂, _ ++ ms₁, ms₂, rfl, (List.append_assoc ..).symm, .cons hfirst hts, hus⟩

section
variable (d : Definition) (limits : Limits) (binds : Operand → Slot → Prop)

/-- Wherever the template aligns and operands are bound to what they meet, the S-expression is
matched, and as many of its guards hold there as the template has. -/
def Enforces (s : Sexp) (t : Template) : Prop :=
  ∀ c ms, Aligned limits t c ms → (∀ m ∈ ms, binds m.1 m.2) →
    ∃ checks, s.Meets d binds c checks ∧ Passed limits t.guardCount checks

/-- The same for what is matched with the terms of a sum. -/
def EnforcesTerms (part : List (Bool × Canon) → List (Guard × Canon) → Prop)
    (ts : List (Bool × Template)) : Prop :=
  ∀ cs ms, AlignedTerms limits ts cs ms → (∀ m ∈ ms, binds m.1 m.2) →
    ∃ checks, part cs checks ∧ Passed limits (Template.guardCountOfTerms ts) checks

/-- What was gathered between two states of a sum whose immediate is `v`: new terms that enforce
their guards as a part of the sum that has the given share of the constant. -/
def EnforcesPart (v : Int) (part : List (Bool × Canon) → Int → List (Guard × Canon) → Prop)
    (g g' : Template.Gathered) : Prop :=
  ∃ new offset, g'.terms = g.terms ++ new ∧ g'.offset v = g.offset v + offset ∧
    (∀ op, g.absorber = some op → g'.absorber = some op) ∧
    ((∀ op, g'.absorber = some op → binds op (.imm v)) →
      EnforcesTerms limits binds (part · offset) new)

end

open Template
variable {d : Definition} {binds : Operand → Slot → Prop} {v : Int}

theorem enforcesTerms_nil {part : List (Bool × Canon) → List (Guard × Canon) → Prop}
    (h : part [] []) : EnforcesTerms limits binds part [] := by
  intro cs ms haligned _
  cases haligned
  exact ⟨[], h, passed_nil⟩

theorem enforcesPart_push {g : Gathered} {negated : Bool} {s : Sexp} {t : Template}
    (hplain : s.namesImmediate d = false) (h : Enforces d limits binds s t) :
    EnforcesPart limits binds v (Sexp.MeetsPart d binds negated s) g (g.push negated t) := by
  refine ⟨[(negated, t)], 0, rfl, (Int.add_zero _).symm, fun _ hop => hop, fun _ => ?_⟩
  intro cs ms haligned hbinds
  cases haligned with
  | cons hfirst hrest =>
    cases hrest
    obtain ⟨checks, hmeets, hpassed⟩ :=
      h _ _ hfirst fun m hm => hbinds m (List.mem_append_left _ hm)
    exact ⟨checks, .term hplain hmeets, hpassed⟩

theorem enforcesPart_cons {op : AdditiveOp} {negated : Bool} {position : Nat} {s : Sexp}
    {ss : List Sexp} {g next g' : Gathered}
    (hfirst : EnforcesPart limits binds v
      (Sexp.MeetsPart d binds (negated ^^ op.negates position) s) g next)
    (hrest : EnforcesPart limits binds v
      (Sexp.MeetsParts d binds op negated (position + 1) ss) next g') :
    EnforcesPart limits binds v (Sexp.MeetsParts d binds op negated position (s :: ss)) g g' := by
  obtain ⟨ts, offset, hts, hoffset, hkept, hpart⟩ := hfirst
  obtain ⟨us, offset', hus, hoffset', hkept', hparts⟩ := hrest
  refine ⟨ts ++ us, offset + offset', ?_, ?_, fun op hop => hkept' op (hkept op hop),
    fun hbound => ?_⟩
  · rw [hus, hts, List.append_assoc]
  · rw [hoffset', hoffset, Int.add_assoc]
  intro cs ms haligned hbinds
  obtain ⟨cs₁, cs₂, ms₁, ms₂, rfl, rfl, hfirst, hrest⟩ := alignedTerms_append haligned
  obtain ⟨checks, hmeets, hpassed⟩ := hpart (fun op hop => hbound op (hkept' op hop)) _ _ hfirst
    fun m hm => hbinds m (List.mem_append_left _ hm)
  obtain ⟨checks', hmeets', hpassed'⟩ := hparts hbound _ _ hrest
    fun m hm => hbinds m (List.mem_append_right _ hm)
  rw [guardCountOfTerms_append]
  exact ⟨checks ++ checks', .cons hmeets hmeets', hpassed.append hpassed'⟩

theorem enforces_ofName {guards : List Guard} {name : String} {t : Template}
    {u u' : Flags d} (h : ofName d guards name u = .ok (t, u')) :
    Enforces d limits binds (.atom name guards) t := by
  intro c ms haligned hbinds
  obtain ⟨v, hname, rfl, -⟩ | ⟨hname, op, hop, rfl⟩ := ofName_eq_ok h
  · cases haligned with
    | const hguards hc => exact ⟨_, .literal hname hc, passed_checksAt hguards⟩
  · have hfound := (inputNamed_eq_ok hop).1
    rw [ofOperand] at haligned ⊢
    cases hkind : op.kind with
    | register =>
      simp only [hkind] at haligned ⊢
      cases haligned with
      | register hguards =>
        exact ⟨_, .register hname hfound hkind (hbinds _ List.mem_cons_self),
          passed_checksAt hguards⟩
    | immediate =>
      simp only [hkind] at haligned ⊢
      cases haligned with
      | immediate hguards hc =>
        exact ⟨_, .immediate hname hfound hkind hc (hbinds _ List.mem_cons_self),
          passed_checksAt hguards⟩

theorem enforcesPart_pushName {g g' : Gathered} {negated : Bool} {guards : List Guard}
    {name : String} {u u' : Flags d} (h : g.pushName d negated guards name u = .ok (g', u')) :
    EnforcesPart limits binds v (Sexp.MeetsPart d binds negated (.atom name guards)) g g' := by
  cases Gathered.adds_of_pushName h with
  | @literal _ value hvalue =>
    refine ⟨[], withSign negated value, (List.append_nil _).symm, ?_, fun _ hop => hop, fun _ =>
      enforcesTerms_nil (.literal hvalue)⟩
    exact Int.add_right_comm ..
  | @immediate _ _ op _ _ hread hkind hsign hfree =>
    subst hsign
    refine ⟨[], v, (List.append_nil _).symm, ?_, fun _ hop' => ?_, fun hbound =>
      enforcesTerms_nil (.immediate (inputNamed_eq_ok hread).1 hkind (hbound op rfl))⟩
    · simp [Gathered.offset, hfree]
    · cases hfree.symm.trans hop'
  | @term _ _ t _ _ hregister ht =>
    refine enforcesPart_push ?_ (enforces_ofName ht)
    cases hop : d.operand? name with
    | none => simp [Sexp.namesImmediate, hop]
    | some op => simp [Sexp.namesImmediate, hop, hregister op hop]

/-- The immediate meets what the constant of a template leaves of that of a node. -/
theorem MeetsConstant.met_difference {constant met : Int} {absorber : Option Operand}
    {ms : List (Operand × Slot)} (h : MeetsConstant constant absorber met ms) :
    (∀ op, absorber = some op → (op, .imm (met - constant)) ∈ ms) ∧
      constant + (if absorber.isSome then met - constant else 0) = met := by
  cases h with
  | equal => simp
  | absorbed _ => simp

/-- The parts of a sum enforce their guards, and so does the template that they give, be it a sum or
the only term. -/
theorem enforces_toTemplate {head : String} {op : AdditiveOp} {guards : List Guard}
    {args : List Sexp} {g : Gathered} {t : Template}
    (hhead : Head.ofName? head = some (.additive op))
    (hg : ∀ v, EnforcesPart limits binds v (Sexp.MeetsParts d binds op false 0 args) {} g)
    (h : g.toTemplate guards = .ok t) : Enforces d limits binds (.app head guards args) t := by
  intro c ms haligned hbinds
  rw [Gathered.toTemplate] at h
  split at h
  · cases h
  · rename_i inner hterms hconstant habsorber
    obtain rfl := Except.ok.inj h
    obtain ⟨hinner, hguards⟩ := aligned_addGuards haligned
    obtain ⟨new, offset, hnew, hoffset, -, hparts⟩ := hg 0
    obtain rfl : [(false, inner)] = new := hterms.symm.trans hnew
    obtain rfl : offset = 0 := by simpa [Gathered.offset, hconstant, habsorber] using hoffset.symm
    obtain ⟨checks, hparts, hpassed⟩ := hparts (by simp [habsorber]) [(false, c)] (ms ++ [])
      (.cons hinner .nil) (by rwa [List.append_nil])
    rw [guardCount_addGuards]
    exact ⟨_, .single hhead hparts, (passed_checksAt hguards).append hpassed⟩
  · obtain rfl := Except.ok.inj h
    cases haligned with
    | @sum _ _ _ _ _ met paired metConstant _ ms ms' hguards _ hpaired hconst halignedTerms =>
      obtain ⟨new, offset, hnew, hoffset, -, hparts⟩ := hg (metConstant - g.constant)
      obtain rfl : g.terms = new := hnew
      obtain ⟨hmet, hsum⟩ := hconst.met_difference
      obtain rfl : offset = metConstant := by
        simpa [Gathered.offset] using hoffset.symm.trans hsum
      obtain ⟨checks, hparts, hpassed⟩ := hparts
        (fun op hop => hbinds _ (List.mem_append_left _ (hmet op hop))) _ _ halignedTerms
        fun m hm => hbinds m (List.mem_append_right _ hm)
      exact ⟨_, .sum hhead hpaired hparts, (passed_checksAt hguards).append hpassed⟩

theorem enforces_applied {head : String} {guards : List Guard} {args : List Sexp}
    {sum : AdditiveOp → Compiling d Gathered} {t : Template} {u u' : Flags d}
    (hargs : ∀ {ts}, compileAll d args u = .ok (ts, u') →
      List.Forall₂ (Enforces d limits binds) args ts)
    (hsum : ∀ {op g}, sum op u = .ok (g, u') →
      ∀ v, EnforcesPart limits binds v (Sexp.MeetsParts d binds op false 0 args) {} g)
    (h : Applied head guards args.length (compileAll d args) sum u u' t) :
    Enforces d limits binds (.app head guards args) t := by
  cases h with
  | additive hhead _ hg ht => exact enforces_toTemplate hhead (hsum hg) ht
  | monadic hhead hts =>
    cases hargs hts with
    | cons ha hnil =>
      cases hnil
      intro c ms haligned hbinds
      cases haligned with
      | monadic hguards haligned =>
        obtain ⟨checks, hmeets, hpassed⟩ := ha _ _ haligned hbinds
        exact ⟨_, .monadic hhead hmeets, (passed_checksAt hguards).append hpassed⟩
  | dyadic hhead hts =>
    cases hargs hts with
    | cons ha hrest =>
      cases hrest with
      | cons hb hnil =>
        cases hnil
        intro c ms haligned hbinds
        cases haligned with
        | direct hguards hfirst hsecond =>
          obtain ⟨hbinds, hbinds'⟩ := List.forall_mem_append.mp hbinds
          obtain ⟨checks, hmeets, hpassed⟩ := ha _ _ hfirst hbinds
          obtain ⟨checks', hmeets', hpassed'⟩ := hb _ _ hsecond hbinds'
          exact ⟨_, .direct hhead hmeets hmeets',
            (passed_checksAt hguards).append (hpassed.append hpassed')⟩
        | swapped hguards hcomm hfirst hsecond =>
          obtain ⟨hbinds, hbinds'⟩ := List.forall_mem_append.mp hbinds
          obtain ⟨checks, hmeets, hpassed⟩ := ha _ _ hfirst hbinds
          obtain ⟨checks', hmeets', hpassed'⟩ := hb _ _ hsecond hbinds'
          exact ⟨_, .swapped hhead hcomm hmeets hmeets',
            (passed_checksAt hguards).append (hpassed.append hpassed')⟩

mutual

theorem enforces_compile : (s : Sexp) → ∀ {u u' : Flags d} {t : Template},
    compile d s u = .ok (t, u') → Enforces d limits binds s t
  | .atom name guards, u, u', t, h => by
    rw [compile] at h
    exact enforces_ofName h
  | .app head guards args, u, u', t, h =>
    enforces_applied (enforces_compileAll args) (fun hg v => enforcesPart_gatherAll args hg)
      (compile_app h)

theorem enforces_compileAll : (ss : List Sexp) → ∀ {u u' : Flags d} {ts : List Template},
    compileAll d ss u = .ok (ts, u') → List.Forall₂ (Enforces d limits binds) ss ts
  | [], u, u', ts, h => by
    obtain ⟨rfl, -⟩ := compileAll_nil h
    exact .nil
  | s :: ss, u, u', ts, h => by
    obtain ⟨t, us, v, ht, hus, rfl⟩ := compileAll_cons h
    exact .cons (enforces_compile s ht) (enforces_compileAll ss hus)

theorem enforcesPart_gather : (s : Sexp) → ∀ {v : Int} {negated : Bool} {g g' : Gathered}
    {u u' : Flags d}, gather d negated g s u = .ok (g', u') →
    EnforcesPart limits binds v (Sexp.MeetsPart d binds negated s) g g'
  | .atom name guards, v, negated, g, g', u, u', h => by
    rw [gather] at h
    exact enforcesPart_pushName h
  | .app head guards args, v, negated, g, g', u, u', h => by
    obtain ⟨op, hnested, hall⟩ | ⟨hnested, t, ht, rfl⟩ := gather_app h
    · obtain ⟨rfl, hname⟩ := nestedOp_eq_some.mp hnested
      obtain ⟨new, offset, hterms, hoffset, hkept, hparts⟩ :=
        enforcesPart_gatherAll (v := v) args hall
      refine ⟨new, offset, hterms, hoffset, hkept, fun hbound cs ms haligned hbinds => ?_⟩
      obtain ⟨checks, hparts, hpassed⟩ := hparts hbound cs ms haligned hbinds
      exact ⟨checks, .nested (Head.ofName_additive.mpr hname) hparts, hpassed⟩
    · refine enforcesPart_push rfl ?_
      exact enforces_applied (enforces_compileAll args) (fun hg v => enforcesPart_gatherAll args hg)
        (compile_app ht)

theorem enforcesPart_gatherAll : (ss : List Sexp) → ∀ {v : Int} {op : AdditiveOp} {negated : Bool}
    {position : Nat} {g g' : Gathered} {u u' : Flags d},
    gatherAll d op negated position g ss u = .ok (g', u') →
    EnforcesPart limits binds v (Sexp.MeetsParts d binds op negated position ss) g g'
  | [], v, op, negated, position, g, g', u, u', h => by
    obtain ⟨rfl, -⟩ := gatherAll_nil h
    exact ⟨[], 0, (List.append_nil _).symm, (Int.add_zero _).symm, fun _ hop => hop,
      fun _ => enforcesTerms_nil .nil⟩
  | s :: ss, v, op, negated, position, g, g', u, u', h => by
    obtain ⟨next, w, hs, hss⟩ := gatherAll_cons h
    exact enforcesPart_cons (enforcesPart_gather s hs) (enforcesPart_gatherAll ss hss)

end

end Match

/-! ## Candidates -/

/-- A candidate at a form binds an operand to what it meets: to a node of the form with the key of
the one it meets, or to the constant. -/
def Candidate.Binds (cand : Candidate) (form : Canon) (op : Operand) : Match.Slot → Prop
  | .node c => ∃ met ∈ form.preorder, met.key = c.key ∧
      cand.binding? op.name = some (.value met.source)
  | .imm v => cand.binding? op.name = some (.imm v)

namespace Match
variable {limits : Limits}

/-- A candidate stems from an alignment whose operands it binds to what they meet. -/
theorem bound_of_attempt {e : Entry} {t : Template} {c : Canon} {cand : Candidate}
    (hvalid : e.definition.Valid) (ht : e.template = some t)
    (hreads : t.Reads e.definition.operands) (hc : c.IsForm)
    (h : attempt limits e c = some cand) :
    ∃ ms, Aligned limits t c ms ∧ ∀ m ∈ ms, cand.Binds c m.1 m.2 := by
  obtain ⟨ms, haligned, hconsistent, hbinds⟩ := binds_of_attempt hvalid ht hreads hc h
  have hplaced := haligned.placed hreads
  refine ⟨ms, haligned, fun ⟨op, slot⟩ hmem => ?_⟩
  obtain ⟨met, bound, hmet, hbound, hbinding⟩ := hbinds op slot hmem
  cases hplaced _ hmem with
  | node _ hkind hd =>
    cases hplaced _ hmet with
    | imm _ himmediate => cases hkind.symm.trans himmediate
    | node _ _ hmetMem =>
      rw [boundOf?] at hbound
      split at hbound
      · cases hbound
      · exact ⟨_, hmetMem, hconsistent.oneKey op _ _ hmet hmem, hbinding.trans hbound.symm⟩
  | imm _ hkind v =>
    cases hplaced _ hmet with
    | node _ hregister => cases hregister.symm.trans hkind
    | imm _ _ w =>
      obtain rfl := hconsistent.oneValue op _ _ hmet hmem
      rw [boundOf?] at hbound
      split at hbound
      · exact hbinding.trans hbound.symm
      · cases hbound

theorem score_guards_of_attempt {e : Entry} {t : Template} {c : Canon} {cand : Candidate}
    (ht : e.template = some t) (h : attempt limits e c = some cand) :
    cand.score.guards = t.guardCount := by
  obtain ⟨t', s, ms, hstems⟩ := stems_of_attempt h
  obtain rfl := Option.some.inj (ht.symm.trans hstems.template)
  rw [hstems.score]
  exact (guards_align limits t hstems.found).trans (Nat.zero_add _)

end Match

namespace Matcher
open Match

/-- A candidate for a definition that has a template stems from that template. -/
theorem attempt_of_template {config : RegistrySettings} {extensions : List Extension} {r : Registry}
    (hload : Registry.load config extensions = .ok r) {settings : MatchSettings} {c : Canon}
    {cand : Candidate} (h : cand ∈ (Matcher.new r settings).candidates c) {t : Template}
    (ht : cand.instruction.entry.template = some t) :
    attempt (Matcher.new r settings).limits cand.instruction.entry c = some cand := by
  rcases mem_candidates_iff.mp h with
    ⟨e, -, hattempt⟩ | ⟨-, shift, -, base, variant, hpair, hround⟩
  · rw [entry_of_attempt hattempt]
    exact hattempt
  · obtain ⟨hbase, hvariant, hname⟩ :=
      (Registry.loaded_of_load hload).mem_roundingPairs_iff.mp hpair
    obtain ⟨-, hnone, -⟩ := Registry.rounds_of_load hload hbase hvariant hname
    obtain ⟨plain, -, rfl⟩ := Option.map_eq_some_iff.mp hround
    cases hnone.symm.trans ht

/-- **Guards are enforced.** Whatever a matcher returns for a definition with a template, the text
of the template is matched with the node of the candidate such that the operands meet what they are
bound to, and the score counts guards that hold, each on the node that its part is matched with.
These are all guards in the text, one for each colon, but those on an immediate that is added in a
sum. -/
theorem guards_enforced {config : RegistrySettings} {extensions : List Extension} {r : Registry}
    (hload : Registry.load config extensions = .ok r) {settings : MatchSettings} {t : ExprTree}
    (ht : t.Assembled) {cand : Candidate} (h : (Matcher.new r settings).Returns t cand)
    {text : String} (htext : cand.instruction.entry.definition.template = some text) :
    ∃ s p checks, Sexp.ofText text = .ok s ∧ t.node? cand.root = some p ∧
      s.Meets cand.instruction.entry.definition (cand.Binds (Canon.ofExpr p)) (Canon.ofExpr p)
        checks ∧
      (∀ check ∈ checks, check.1.holds check.2.info check.2.ty r.xlen = true) ∧
      cand.score.guards = checks.length ∧
      (checks.map Prod.fst ++ s.waived cand.instruction.entry.definition).Perm s.annotations ∧
      cand.score.guards + (s.waived cand.instruction.entry.definition).length =
        text.toList.count ':' := by
  obtain ⟨p, hp, hcand⟩ := matched_of_returns ht.indexed h
  have hentry := (footprint_of_mem hload ⟨p, rfl⟩ hcand).1
  have hvalid := (Registry.loaded_of_load hload).valid hentry
  obtain ⟨template, htemplate, hcompiled⟩ := Registry.ofText_of_load hload hentry htext
  have hattempt := attempt_of_template hload hcand htemplate
  obtain ⟨s, hs, -⟩ := Template.ofText_eq_ok hcompiled
  obtain ⟨ms, haligned, hbound⟩ := bound_of_attempt hvalid htemplate
    (Template.reads_ofText hcompiled).1 ⟨p, rfl⟩ hattempt
  obtain ⟨used, hcompile⟩ := Template.compile_of_ofText hs hcompiled
  obtain ⟨checks, hmeets, hholds, hlength⟩ := enforces_compile s hcompile _ _ haligned hbound
  have hguards : cand.score.guards = checks.length :=
    (score_guards_of_attempt htemplate hattempt).trans hlength.symm
  have hperm : (checks.map Prod.fst ++ s.waived cand.instruction.entry.definition).Perm
      s.annotations := by
    refine List.perm_iff_count.mpr fun g => ?_
    rw [List.count_append]
    exact hmeets.count g
  refine ⟨s, p, checks, hs, ?_, hmeets, hholds, hguards, hperm, ?_⟩
  · rw [(wellFormed_of_mem hload hcand).root]
    exact ht.indexed.node_of_mem hp
  · rw [hguards, ← Sexp.length_annotations hs, ← hperm.length_eq, List.length_append,
      List.length_map]

/-- A run that finds a candidate at the root of a tree and passes a test, taken apart. -/
theorem exists_of_match (extensions : List Extension) (vars : Typing) (text : String)
    (test : Candidate → Bool)
    (hrun : (Registry.load {} extensions).toOption.any (fun r =>
      (ExprTree.ofText vars text).toOption.any fun t =>
        ((Matcher.new r {}).matchAt t.root).any test) = true) :
    ∃ r t cand, Registry.load {} extensions = .ok r ∧ ExprTree.ofText vars text = .ok t ∧
      cand ∈ (Matcher.new r {}).matchAt t.root ∧ test cand = true := by
  obtain ⟨r, hload, hany⟩ := Option.any_eq_true _ _ |>.mp hrun
  obtain ⟨t, htext, hany⟩ := Option.any_eq_true _ _ |>.mp hany
  obtain ⟨cand, hcand, htest⟩ := List.any_eq_true.mp hany
  exact ⟨r, t, cand, eq_ok_of_toOption hload, eq_ok_of_toOption htext, hcand, htest⟩

/-- The three guards of an accumulation all hold where it is found, and there are three in its
text. -/
theorem guards_enforced_accumulate :
    ∃ r t cand s p checks, Registry.load {} [Bundled.xcorev] = .ok r ∧
      ExprTree.ofText (.ofList [("a", .u8), ("b", .u8), ("c", .u16)]) "(c + a * b) >> 3" = .ok t ∧
      cand ∈ (Matcher.new r {}).matchAt t.root ∧ cand.name = "cv.macun" ∧
      Sexp.ofText "(shr:unsigned (add:nowrap rd (mul:nowrap rs1 rs2)) is3)" = .ok s ∧
      s.Meets cand.instruction.entry.definition (cand.Binds (Canon.ofExpr p)) (Canon.ofExpr p)
        checks ∧
      (∀ check ∈ checks, check.1.holds check.2.info check.2.ty r.xlen = true) ∧
      cand.score.guards = 3 ∧ checks.length = 3 ∧
      cand.score.guards + (s.waived cand.instruction.entry.definition).length = 3 := by
  obtain ⟨r, t, cand, hload, htree, hcand, htest⟩ :=
    exists_of_match [Bundled.xcorev] (.ofList [("a", .u8), ("b", .u8), ("c", .u16)])
      "(c + a * b) >> 3" (fun cand => cand.name = "cv.macun" && cand.score.guards = 3 &&
        cand.instruction.entry.definition.template =
          some "(shr:unsigned (add:nowrap rd (mul:nowrap rs1 rs2)) is3)") (by decide +kernel)
  obtain ⟨htest, htext⟩ := Bool.and_eq_true_iff.mp htest
  obtain ⟨hname, hguards⟩ := Bool.and_eq_true_iff.mp htest
  have ht : t.Assembled := .read _ _ htree
  obtain ⟨s, p, checks, hs, -, hmeets, hholds, hcount, -, hcolons⟩ := guards_enforced hload ht
    (.matched t.root ht.indexed.root_mem hcand) (of_decide_eq_true htext)
  have hguards := of_decide_eq_true hguards
  exact ⟨r, t, cand, s, p, checks, hload, htree, hcand, of_decide_eq_true hname, hs, hmeets, hholds,
    hguards, hcount.symm.trans hguards, hcolons.trans (by decide +kernel)⟩

/-- An addition of an immediate that is declared to be no negative number. -/
def addUnsigned : Definition := { addImmediate with template := some "(add rs1 imm:unsigned)" }

/-- A guard on an immediate in a sum is not enforced: the addition of an unsigned immediate is found
for a subtraction, with a negative immediate, and no guard is counted. -/
theorem guard_on_absorber_waived :
    ∃ r t cand, Registry.load {} [⟨"i", "Immediates", [addUnsigned]⟩] = .ok r ∧
      ExprTree.ofText (.ofList [("x", .i32)]) "x - 5" = .ok t ∧
      cand ∈ (Matcher.new r {}).matchAt t.root ∧
      cand.instruction.entry.definition.template = some "(add rs1 imm:unsigned)" ∧
      cand.binding? "imm" = some (.imm (-5)) ∧ cand.score.guards = 0 ∧
      "(add rs1 imm:unsigned)".toList.count ':' = 1 := by
  obtain ⟨r, t, cand, hload, htree, hcand, htest⟩ :=
    exists_of_match [⟨"i", "Immediates", [addUnsigned]⟩] (.ofList [("x", .i32)]) "x - 5"
      (fun cand => cand.binding? "imm" = some (.imm (-5)) && cand.score.guards = 0 &&
        cand.instruction.entry.definition.template = some "(add rs1 imm:unsigned)")
      (by decide +kernel)
  obtain ⟨htest, htext⟩ := Bool.and_eq_true_iff.mp htest
  obtain ⟨hbinding, hguards⟩ := Bool.and_eq_true_iff.mp htest
  exact ⟨r, t, cand, hload, htree, hcand, of_decide_eq_true htext, of_decide_eq_true hbinding,
    of_decide_eq_true hguards, by decide⟩

end Matcher
end CustomIsa
