import CustomIsa.Proofs.Definition
import CustomIsa.Proofs.Foundations
import CustomIsa.Template.Compile
/-! # Compiled templates

A template that was compiled against a definition reads inputs of that definition only, each as what
it is (`Template.Reads`): registers where nodes are met, immediates where constants are. All inputs
occur in it, and its topmost part is an operator (`Template.compiled_ofText`).

The compiler does not look for the inputs in the finished template. It sets the flag of an operand
when it meets its name, and what it makes of the name may be moved into a sum, stand for a whole sum
or become the immediate of one before it is done. That no flag is set without the operand being kept
is an invariant of every step (`Template.Marks`). -/
namespace CustomIsa
namespace Template

mutual

/-- The operands of the template are among the given ones, and stand as registers and immediates
according to their kinds; every sum has terms. -/
def Reads (ops : List Operand) : Template → Prop
  | .register _ op => op ∈ ops ∧ op.kind = .register
  | .immediate _ op => op ∈ ops ∧ op.kind = .immediate
  | .const _ _ => True
  | .monadic _ _ a => a.Reads ops
  | .dyadic _ _ a b => a.Reads ops ∧ b.Reads ops
  | .sum _ terms _ absorber =>
    ReadsTerms ops terms ∧ (∀ op, absorber = some op → op ∈ ops ∧ op.kind = .immediate) ∧
      terms ≠ []

/-- The same for signed terms. -/
def ReadsTerms (ops : List Operand) : List (Bool × Template) → Prop
  | [] => True
  | (_, t) :: ts => t.Reads ops ∧ ReadsTerms ops ts

end

variable {d : Definition} {ops : List Operand}

theorem readsTerms_iff {ts : List (Bool × Template)} :
    ReadsTerms ops ts ↔ ∀ t ∈ ts, t.2.Reads ops := by
  induction ts with
  | nil => simp [ReadsTerms]
  | cons t ts ih => simp [ReadsTerms, ih]

theorem reads_addGuards {t : Template} (h : t.Reads ops) (more : List Guard) :
    (t.addGuards more).Reads ops := by
  cases t <;> exact h

mutual

theorem Reads.mono {ops' : List Operand} (hsub : ops ⊆ ops') :
    ∀ {t : Template}, t.Reads ops → t.Reads ops'
  | .register _ _, h | .immediate _ _, h => by
    rw [Reads] at h ⊢
    exact ⟨hsub h.1, h.2⟩
  | .const _ _, _ => by simp only [Reads]
  | .monadic _ _ _, h => by
    rw [Reads] at h ⊢
    exact h.mono hsub
  | .dyadic _ _ _ _, h => by
    rw [Reads] at h ⊢
    exact ⟨h.1.mono hsub, h.2.mono hsub⟩
  | .sum _ _ _ _, h => by
    rw [Reads] at h ⊢
    obtain ⟨hterms, habsorber, hne⟩ := h
    exact ⟨ReadsTerms.mono hsub hterms,
      fun op hop => ⟨hsub (habsorber op hop).1, (habsorber op hop).2⟩, hne⟩

theorem ReadsTerms.mono {ops' : List Operand} (hsub : ops ⊆ ops') :
    ∀ {ts : List (Bool × Template)}, ReadsTerms ops ts → ReadsTerms ops' ts
  | [], _ => by simp only [ReadsTerms]
  | (_, _) :: _, h => by
    rw [ReadsTerms] at h ⊢
    exact ⟨h.1.mono hsub, ReadsTerms.mono hsub h.2⟩

end

/-! ## Operands -/

mutual

/-- The operands that occur in a template. -/
def operands : Template → List Operand
  | .register _ op | .immediate _ op => [op]
  | .const _ _ => []
  | .monadic _ _ a => a.operands
  | .dyadic _ _ a b => a.operands ++ b.operands
  | .sum _ terms _ absorber => operandsOfTerms terms ++ absorber.toList

/-- The operands that occur in signed terms. -/
def operandsOfTerms : List (Bool × Template) → List Operand
  | [] => []
  | (_, t) :: ts => t.operands ++ operandsOfTerms ts

end

/-- The shape of a template that reads operands and has an operator on top is one that has a rule,
so the template is entered in the table. -/
theorem exists_rule_of_reads {t : Template} (h : t.Reads ops) (ht : t.isOperator = true) :
    ∃ key, t.rootShape? = some key ∧ key.rule?.isSome = true := by
  cases t with
  | register | immediate | const => cases ht
  | monadic => exact ⟨_, rfl, rfl⟩
  | dyadic => exact ⟨_, rfl, rfl⟩
  | sum guards terms constant absorber =>
    refine ⟨_, rfl, ?_⟩
    cases terms with
    | nil => exact absurd rfl h.2.2
    | cons => rfl

theorem operands_addGuards (t : Template) (more : List Guard) :
    (t.addGuards more).operands = t.operands := by
  cases t <;> simp only [addGuards, operands]

theorem operandsOfTerms_append (ts us : List (Bool × Template)) :
    operandsOfTerms (ts ++ us) = operandsOfTerms ts ++ operandsOfTerms us := by
  induction ts with
  | nil => rw [operandsOfTerms, List.nil_append, List.nil_append]
  | cons t ts ih =>
    rw [List.cons_append, operandsOfTerms, operandsOfTerms, ih, List.append_assoc]

theorem reads_ofOperand {op : Operand} (h : op ∈ ops) (guards : List Guard) :
    (ofOperand guards op).Reads ops := by
  rw [ofOperand]
  cases hkind : op.kind with
  | register => simpa only [Reads] using ⟨h, hkind⟩
  | immediate => simpa only [Reads] using ⟨h, hkind⟩

theorem operands_ofOperand (guards : List Guard) (op : Operand) :
    (ofOperand guards op).operands = [op] := by
  rw [ofOperand]
  cases op.kind <;> simp only [operands]

/-! ## Steps of the compiler -/

section Compiling
variable {α β : Type} {u u' : Flags d}

/-- Two steps succeed one after the other, with the flags in between. -/
theorem of_compiling_bind {x : Compiling d α} {f : α → Compiling d β} {b : β}
    (h : (x >>= f) u = .ok (b, u')) : ∃ a v, x u = .ok (a, v) ∧ f a v = .ok (b, u') := by
  obtain ⟨⟨a, v⟩, hx, hf⟩ := bind_eq_ok h
  exact ⟨a, v, hx, hf⟩

theorem of_compiling_pure {a b : α} (h : (pure a : Compiling d α) u = .ok (b, u')) :
    b = a ∧ u' = u := by
  obtain ⟨rfl, rfl⟩ := Prod.mk.inj (Except.ok.inj h)
  exact ⟨rfl, rfl⟩

/-- A step that reads no operand leaves the flags alone. -/
theorem of_compiling_lift {x : Except Fault α} {a : α}
    (h : (liftM x : Compiling d α) u = .ok (a, u')) : x = .ok a ∧ u' = u := by
  obtain ⟨b, rfl, hpure⟩ := bind_eq_ok h
  obtain ⟨rfl, rfl⟩ := of_compiling_pure hpure
  exact ⟨rfl, rfl⟩

end Compiling

/-- No flags but those of the given operands are set in between. -/
def Marks (u u' : Flags d) (ops : List Operand) : Prop :=
  ∀ i, u'.get i = true → u.get i = true ∨ d.operands.get i ∈ ops

section Marks
variable {u u' u'' : Flags d} {ops' : List Operand}

theorem marks_refl (u : Flags d) (ops : List Operand) : Marks u u ops := fun _ hi => .inl hi

theorem Marks.mono (h : Marks u u' ops) (hsub : ops ⊆ ops') : Marks u u' ops' :=
  fun i hi => (h i hi).imp_right fun hop => hsub hop

theorem Marks.trans (h : Marks u u' ops) (h' : Marks u' u'' ops) : Marks u u'' ops := by
  intro i hi
  rcases h' i hi with hi | hop
  · exact h i hi
  · exact .inr hop

theorem marks_set (u : Flags d) (i : Fin d.operands.length) :
    Marks u (u.set i true i.isLt) [d.operands.get i] := by
  intro j hj
  by_cases hij : i = j
  · exact .inr (hij ▸ List.mem_singleton.mpr rfl)
  · have hsame : (u.set i true i.isLt).get j = u.get j :=
      Vector.getElem_set_ne i.isLt j.isLt fun h => hij (Fin.ext h)
    exact .inl (hsame ▸ hj)

end Marks

theorem operand?_of_operandIndex? {name : String} {i : Fin d.operands.length}
    (h : d.operandIndex? name = some i) : d.operand? name = some (d.operands.get i) := by
  obtain ⟨hname, hfirst⟩ := List.findFinIdx?_eq_some_iff.mp h
  exact List.find?_eq_some_iff_getElem.mpr
    ⟨hname, i, i.isLt, rfl, fun j hj => by simpa using hfirst ⟨j, Nat.lt_trans hj i.isLt⟩ hj⟩

/-- A name that is read is that of an input, whose flag is set. -/
theorem inputNamed_eq_ok {name : String} {op : Operand} {u u' : Flags d}
    (h : inputNamed d name u = .ok (op, u')) :
    d.operand? name = some op ∧ op ∈ d.inputs ∧ Marks u u' [op] := by
  rw [inputNamed] at h
  cases hi : d.operandIndex? name with
  | none =>
    rw [hi] at h
    cases h
  | some i =>
    by_cases hinput : (d.operands.get i).isInput = true
    · simp only [hi, hinput, if_true] at h
      obtain ⟨⟨⟩, v, hset, hpure⟩ := of_compiling_bind h
      obtain ⟨rfl, rfl⟩ := of_compiling_pure hpure
      obtain ⟨-, rfl⟩ := Prod.mk.inj (Except.ok.inj hset)
      exact ⟨operand?_of_operandIndex? hi, List.mem_filter.mpr ⟨List.getElem_mem i.isLt, hinput⟩,
        marks_set u i⟩
    · simp only [hi, hinput] at h
      cases h

/-- A name gives the constant of a literal, or the operand that is read. -/
theorem ofName_eq_ok {guards : List Guard} {name : String} {t : Template} {u u' : Flags d}
    (h : ofName d guards name u = .ok (t, u')) :
    (∃ value, Sexp.literal? name = some value ∧ t = .const guards value ∧ u' = u) ∨
      Sexp.literal? name = none ∧ ∃ op, inputNamed d name u = .ok (op, u') ∧
        t = ofOperand guards op := by
  rw [ofName] at h
  cases hliteral : Sexp.literal? name with
  | some value =>
    rw [hliteral] at h
    obtain ⟨rfl, rfl⟩ := of_compiling_pure h
    exact .inl ⟨value, rfl, rfl, rfl⟩
  | none =>
    rw [hliteral] at h
    obtain ⟨op, v, hop, hpure⟩ := of_compiling_bind h
    obtain ⟨rfl, rfl⟩ := of_compiling_pure hpure
    exact .inr ⟨rfl, op, hop, rfl⟩

theorem reads_ofName {guards : List Guard} {name : String} {t : Template} {u u' : Flags d}
    (h : ofName d guards name u = .ok (t, u')) : t.Reads d.inputs ∧ Marks u u' t.operands := by
  obtain ⟨value, -, rfl, rfl⟩ | ⟨-, op, hop, rfl⟩ := ofName_eq_ok h
  · exact ⟨by simp only [Reads], marks_refl u' _⟩
  · obtain ⟨-, hmem, hmarks⟩ := inputNamed_eq_ok hop
    exact ⟨reads_ofOperand hmem guards, operands_ofOperand guards op ▸ hmarks⟩

/-! ## Sums -/

/-- The parts of a sum read operands among the given ones, according to their kinds. -/
structure Gathered.Reads (ops : List Operand) (g : Gathered) : Prop where
  terms : ∀ t ∈ g.terms, t.2.Reads ops
  absorber : ∀ op, g.absorber = some op → op ∈ ops ∧ op.kind = .immediate

/-- What a name adds to the parts of a sum, and which flags are set then: a literal without guards
adds its value, an immediate itself, and anything else a term. -/
inductive Gathered.Adds (d : Definition) (g : Gathered) (negated : Bool) (u : Flags d) :
    List Guard → String → Gathered → Flags d → Prop where
  | literal {name value} (hvalue : Sexp.literal? name = some value) :
    Adds d g negated u [] name
      { g with constant := g.constant + (if negated then -value else value) } u
  | immediate {guards name op u'} (hname : guards ≠ [] ∨ Sexp.literal? name = none)
    (hop : inputNamed d name u = .ok (op, u')) (hkind : op.kind = .immediate)
    (hsign : negated = false) (hfree : g.absorber = none) :
    Adds d g negated u guards name { g with absorber := some op } u'
  | term {guards name t u'} (hname : guards ≠ [] ∨ Sexp.literal? name = none)
    (hop : ∀ op, d.operand? name = some op → op.kind = .register)
    (ht : ofName d guards name u = .ok (t, u')) :
    Adds d g negated u guards name (g.push negated t) u'

namespace Gathered
variable {g g' : Gathered} {u u' : Flags d}

theorem absorb_eq_ok {negated : Bool} {op : Operand} (h : g.absorb negated op = .ok g') :
    negated = false ∧ g.absorber = none ∧ g' = { g with absorber := some op } := by
  rw [absorb] at h
  split at h
  · cases h
  rename_i hsign
  split at h
  · cases h
  rename_i hfree
  exact ⟨Bool.eq_false_iff.mpr hsign, Option.not_isSome_iff_eq_none.mp hfree,
    (Except.ok.inj h).symm⟩

theorem adds_of_pushOperand {negated : Bool} {guards : List Guard} {name : String}
    (hname : guards ≠ [] ∨ Sexp.literal? name = none)
    (h : g.pushOperand d negated guards name u = .ok (g', u')) :
    g.Adds d negated u guards name g' u' := by
  have hterm : (ofName d guards name >>= fun t => pure (g.push negated t)) u = .ok (g', u') →
      (∀ op, d.operand? name = some op → op.kind = .register) →
      g.Adds d negated u guards name g' u' := by
    intro hbind hkind
    obtain ⟨t, v, ht, hpure⟩ := of_compiling_bind hbind
    obtain ⟨rfl, rfl⟩ := of_compiling_pure hpure
    exact .term hname hkind ht
  rw [pushOperand] at h
  cases hop : d.operand? name with
  | none =>
    rw [hop] at h
    exact hterm h fun op hfound => by cases hop.symm.trans hfound
  | some found =>
    rw [hop, Option.map_some] at h
    cases hkind : found.kind with
    | register =>
      rw [hkind] at h
      exact hterm h fun op hfound => Option.some.inj (hop.symm.trans hfound) ▸ hkind
    | immediate =>
      rw [hkind] at h
      obtain ⟨op, v, hread, hlift⟩ := of_compiling_bind h
      obtain ⟨habsorb, rfl⟩ := of_compiling_lift hlift
      obtain ⟨hsign, hfree, rfl⟩ := absorb_eq_ok habsorb
      have hfound := (inputNamed_eq_ok hread).1
      exact .immediate hname hread (Option.some.inj (hop.symm.trans hfound) ▸ hkind) hsign hfree

theorem adds_of_pushName {negated : Bool} {guards : List Guard} {name : String}
    (h : g.pushName d negated guards name u = .ok (g', u')) :
    g.Adds d negated u guards name g' u' := by
  cases hliteral : Sexp.literal? name with
  | none =>
    refine adds_of_pushOperand (.inr hliteral) ?_
    cases guards <;> simpa only [pushName, hliteral] using h
  | some value =>
    cases guards with
    | cons guard guards =>
      refine adds_of_pushOperand (.inl (List.cons_ne_nil guard guards)) ?_
      simpa only [pushName] using h
    | nil =>
      simp only [pushName, hliteral] at h
      obtain ⟨rfl, rfl⟩ := of_compiling_pure h
      exact .literal hliteral

theorem reads_empty : Gathered.Reads ops {} := ⟨by simp, by simp⟩

theorem Reads.push (h : g.Reads ops) (negated : Bool) {t : Template} (ht : t.Reads ops) :
    (g.push negated t).Reads ops := by
  refine ⟨fun v hv => ?_, h.absorber⟩
  rcases List.mem_append.mp hv with hv | hv
  · exact h.terms v hv
  · rw [List.mem_singleton.mp hv]
    exact ht

theorem Reads.pushName {negated : Bool} {guards : List Guard} {name : String}
    (h : g.Reads d.inputs) (heq : g.pushName d negated guards name u = .ok (g', u')) :
    g'.Reads d.inputs := by
  cases adds_of_pushName heq with
  | literal => exact ⟨h.terms, h.absorber⟩
  | immediate _ hop hkind =>
    exact ⟨h.terms, fun op' hop' => Option.some.inj hop' ▸ ⟨(inputNamed_eq_ok hop).2.1, hkind⟩⟩
  | term _ _ ht => exact h.push negated (reads_ofName ht).1

theorem Reads.toTemplate {guards : List Guard} {t : Template} (h : g.Reads ops)
    (heq : g.toTemplate guards = .ok t) : t.Reads ops := by
  rw [Gathered.toTemplate] at heq
  split at heq
  · cases heq
  · rename_i inner hterms _ _
    obtain rfl := Except.ok.inj heq
    exact reads_addGuards (h.terms (false, inner) (by rw [hterms]; exact List.mem_cons_self)) _
  · rename_i hne _
    obtain rfl := Except.ok.inj heq
    exact ⟨readsTerms_iff.mpr h.terms, h.absorber, hne⟩

/-- The operands that occur in the parts of a sum. -/
def operands (g : Gathered) : List Operand := operandsOfTerms g.terms ++ g.absorber.toList

theorem mem_operands_push {negated : Bool} {t : Template} {op : Operand} :
    op ∈ (g.push negated t).operands ↔ op ∈ g.operands ∨ op ∈ t.operands := by
  simp only [operands, push, operandsOfTerms_append, operandsOfTerms, List.append_nil,
    List.mem_append]
  constructor
  · rintro ((hold | hnew) | habsorber)
    · exact .inl (.inl hold)
    · exact .inr hnew
    · exact .inl (.inr habsorber)
  · rintro ((hold | habsorber) | hnew)
    · exact .inl (.inl hold)
    · exact .inr habsorber
    · exact .inl (.inr hnew)

/-- The parts of a sum keep their operands, and those whose flags were set are among them. -/
structure Keeps (g g' : Gathered) (u u' : Flags d) : Prop where
  operands : g.operands ⊆ g'.operands
  marks : Marks u u' g'.operands

theorem Keeps.trans {g'' : Gathered} {u'' : Flags d} (h : Keeps g g' u u')
    (h' : Keeps g' g'' u' u'') : Keeps g g'' u u'' :=
  ⟨fun _ hop => h'.operands (h.operands hop), (h.marks.mono h'.operands).trans h'.marks⟩

theorem keeps_push {negated : Bool} {t : Template} (ht : Marks u u' t.operands) :
    Keeps g (g.push negated t) u u' :=
  ⟨fun _ hop => mem_operands_push.mpr (.inl hop),
    ht.mono fun _ hop => mem_operands_push.mpr (.inr hop)⟩

theorem keeps_pushName {negated : Bool} {guards : List Guard} {name : String}
    (h : g.pushName d negated guards name u = .ok (g', u')) : Keeps g g' u u' := by
  cases adds_of_pushName h with
  | literal => exact ⟨fun _ hop => hop, marks_refl u _⟩
  | @immediate _ _ op _ _ hop _ _ hfree =>
    -- no immediate is lost, since there was none before
    refine ⟨fun x hx => ?_, (inputNamed_eq_ok hop).2.2.mono fun x hx => ?_⟩
    · rw [operands, hfree, Option.toList_none, List.append_nil] at hx
      exact List.mem_append_left _ hx
    · exact List.mem_append_right _ hx
  | term _ _ ht => exact keeps_push (reads_ofName ht).2

/-- A sum has the operands of its parts, also if one part stands for all of it. -/
theorem operands_toTemplate {guards : List Guard} {t : Template}
    (h : g.toTemplate guards = .ok t) : t.operands = g.operands := by
  rw [toTemplate] at h
  split at h
  · cases h
  · rename_i inner hterms _ habsorber
    obtain rfl := Except.ok.inj h
    rw [operands_addGuards, operands, hterms, habsorber, operandsOfTerms, operandsOfTerms,
      Option.toList_none, List.append_nil, List.append_nil]
  · obtain rfl := Except.ok.inj h
    rw [Template.operands, operands]

end Gathered

/-! ## Operators -/

/-- What an operator makes of its operands: of those that are added up, or of one or two others. -/
inductive Applied (name : String) (guards : List Guard) (count : Nat)
    (args : Compiling d (List Template)) (sum : AdditiveOp → Compiling d Gathered)
    (u u' : Flags d) : Template → Prop where
  | additive {op g t} (hhead : Head.ofName? name = some (.additive op))
    (harity : checkArity name (.additive op) count = .ok ()) (hsum : sum op u = .ok (g, u'))
    (ht : g.toTemplate guards = .ok t) : Applied name guards count args sum u u' t
  | monadic {op a} (hhead : Head.ofName? name = some (.monadic op))
    (hargs : args u = .ok ([a], u')) :
    Applied name guards count args sum u u' (.monadic guards op a)
  | dyadic {op a b} (hhead : Head.ofName? name = some (.dyadic op))
    (hargs : args u = .ok ([a, b], u')) :
    Applied name guards count args sum u u' (.dyadic guards op a b)

theorem applied_of_apply {name : String} {guards : List Guard} {count : Nat}
    {args : Compiling d (List Template)} {sum : AdditiveOp → Compiling d Gathered} {t : Template}
    {u u' : Flags d} (h : apply name guards count args sum u = .ok (t, u')) :
    Applied name guards count args sum u u' t := by
  rw [apply] at h
  cases hhead : Head.ofName? name with
  | none =>
    rw [hhead] at h
    cases h
  | some head =>
    cases harity : checkArity name head count with
    | error e =>
      simp only [hhead, harity] at h
      cases h
    | ok =>
      simp only [hhead, harity] at h
      cases head with
      | additive op =>
        obtain ⟨g, v, hg, hlift⟩ := of_compiling_bind h
        obtain ⟨ht, rfl⟩ := of_compiling_lift hlift
        exact .additive hhead harity hg ht
      | monadic op =>
        obtain ⟨ts, v, hts, h⟩ := of_compiling_bind h
        rcases ts with _ | ⟨a, _ | ⟨b, ts⟩⟩
        · cases h
        · obtain ⟨rfl, rfl⟩ := of_compiling_pure h
          exact .monadic hhead hts
        · cases h
      | dyadic op =>
        obtain ⟨ts, v, hts, h⟩ := of_compiling_bind h
        rcases ts with _ | ⟨a, _ | ⟨b, _ | ⟨c, ts⟩⟩⟩
        · cases h
        · cases h
        · obtain ⟨rfl, rfl⟩ := of_compiling_pure h
          exact .dyadic hhead hts
        · cases h

theorem Applied.reads {name : String} {guards : List Guard} {count : Nat}
    {args : Compiling d (List Template)} {sum : AdditiveOp → Compiling d Gathered} {t : Template}
    {u u' : Flags d} (hargs : ∀ {ts}, args u = .ok (ts, u') → ∀ t ∈ ts, t.Reads ops)
    (hsum : ∀ {op g}, sum op u = .ok (g, u') → g.Reads ops)
    (h : Applied name guards count args sum u u' t) : t.Reads ops := by
  cases h with
  | additive _ _ hg ht => exact (hsum hg).toTemplate ht
  | monadic _ hts =>
    have ha := hargs hts
    simp only [List.forall_mem_cons] at ha
    simpa only [Reads] using ha.1
  | dyadic _ hts =>
    have hab := hargs hts
    simp only [List.forall_mem_cons] at hab
    simpa only [Reads] using ⟨hab.1, hab.2.1⟩

theorem Applied.marks {name : String} {guards : List Guard} {count : Nat}
    {args : Compiling d (List Template)} {sum : AdditiveOp → Compiling d Gathered} {t : Template}
    {u u' : Flags d} (hargs : ∀ {ts}, args u = .ok (ts, u') → Marks u u' (ts.flatMap operands))
    (hsum : ∀ {op g}, sum op u = .ok (g, u') → Marks u u' g.operands)
    (h : Applied name guards count args sum u u' t) : Marks u u' t.operands := by
  cases h with
  | additive _ _ hg ht => exact Gathered.operands_toTemplate ht ▸ hsum hg
  | monadic _ hts => simpa only [operands, List.flatMap_cons, List.flatMap_nil,
      List.append_nil] using hargs hts
  | dyadic _ hts => simpa only [operands, List.flatMap_cons, List.flatMap_nil,
      List.append_nil] using hargs hts

/-! ## Compiling -/

section
variable {u u' : Flags d} {op : AdditiveOp} {negated : Bool} {position : Nat} {g g' : Gathered}
  {s : Sexp} {ss : List Sexp} {ts : List Template}

theorem compileAll_nil (h : compileAll d [] u = .ok (ts, u')) : ts = [] ∧ u' = u := by
  rw [compileAll] at h
  exact of_compiling_pure h

theorem compileAll_cons (h : compileAll d (s :: ss) u = .ok (ts, u')) :
    ∃ t us v, compile d s u = .ok (t, v) ∧ compileAll d ss v = .ok (us, u') ∧ ts = t :: us := by
  rw [compileAll] at h
  obtain ⟨t, v, ht, h⟩ := of_compiling_bind h
  obtain ⟨us, w, hus, h⟩ := of_compiling_bind h
  obtain ⟨rfl, rfl⟩ := of_compiling_pure h
  exact ⟨t, us, v, ht, hus, rfl⟩

theorem gatherAll_nil (h : gatherAll d op negated position g [] u = .ok (g', u')) :
    g' = g ∧ u' = u := by
  rw [gatherAll] at h
  exact of_compiling_pure h

theorem gatherAll_cons (h : gatherAll d op negated position g (s :: ss) u = .ok (g', u')) :
    ∃ next v, gather d (negated ^^ op.negates position) g s u = .ok (next, v) ∧
      gatherAll d op negated (position + 1) next ss v = .ok (g', u') := by
  rw [gatherAll] at h
  exact of_compiling_bind h

theorem compile_app {name : String} {guards : List Guard} {args : List Sexp} {t : Template}
    (h : compile d (.app name guards args) u = .ok (t, u')) :
    Applied name guards args.length (compileAll d args) (fun op => gatherAll d op false 0 {} args)
      u u' t := by
  rw [compile] at h
  exact applied_of_apply h

/-- A parenthesis in a sum is gathered into it, or becomes a term of it. -/
theorem gather_app {name : String} {guards : List Guard} {args : List Sexp}
    (h : gather d negated g (.app name guards args) u = .ok (g', u')) :
    (∃ op, nestedOp? name guards = some op ∧
      gatherAll d op negated 0 g args u = .ok (g', u')) ∨
    nestedOp? name guards = none ∧
      ∃ t, compile d (.app name guards args) u = .ok (t, u') ∧ g' = g.push negated t := by
  rw [gather] at h
  cases hnested : nestedOp? name guards with
  | some op =>
    rw [hnested] at h
    exact .inl ⟨op, rfl, h⟩
  | none =>
    rw [hnested] at h
    obtain ⟨t, v, ht, hpure⟩ := of_compiling_bind h
    obtain ⟨rfl, rfl⟩ := of_compiling_pure hpure
    rw [compile]
    exact .inr ⟨rfl, t, ht, rfl⟩

end

mutual

theorem reads_compile : (s : Sexp) → ∀ {u u' : Flags d} {t : Template},
    compile d s u = .ok (t, u') → t.Reads d.inputs
  | .atom name guards, u, u', t, h => by
    rw [compile] at h
    exact (reads_ofName h).1
  | .app name guards args, u, u', t, h =>
    (compile_app h).reads (reads_compileAll args) (reads_gatherAll args Gathered.reads_empty)

theorem reads_compileAll : (ss : List Sexp) → ∀ {u u' : Flags d} {ts : List Template},
    compileAll d ss u = .ok (ts, u') → ∀ t ∈ ts, t.Reads d.inputs
  | [], u, u', ts, h => by
    obtain ⟨rfl, -⟩ := compileAll_nil h
    simp
  | s :: ss, u, u', ts, h => by
    obtain ⟨t, us, v, ht, hus, rfl⟩ := compileAll_cons h
    exact List.forall_mem_cons.mpr ⟨reads_compile s ht, reads_compileAll ss hus⟩

theorem reads_gather : (s : Sexp) → ∀ {negated : Bool} {g g' : Gathered} {u u' : Flags d},
    g.Reads d.inputs → gather d negated g s u = .ok (g', u') → g'.Reads d.inputs
  | .atom name guards, negated, g, g', u, u', hg, h => by
    rw [gather] at h
    exact hg.pushName h
  | .app name guards args, negated, g, g', u, u', hg, h => by
    obtain ⟨op, -, hall⟩ | ⟨-, t, ht, rfl⟩ := gather_app h
    · exact reads_gatherAll args hg hall
    · exact hg.push negated ((compile_app ht).reads (reads_compileAll args)
        (reads_gatherAll args Gathered.reads_empty))

theorem reads_gatherAll : (ss : List Sexp) → ∀ {op : AdditiveOp} {negated : Bool}
    {position : Nat} {g g' : Gathered} {u u' : Flags d}, g.Reads d.inputs →
    gatherAll d op negated position g ss u = .ok (g', u') → g'.Reads d.inputs
  | [], op, negated, position, g, g', u, u', hg, h => by
    obtain ⟨rfl, -⟩ := gatherAll_nil h
    exact hg
  | s :: ss, op, negated, position, g, g', u, u', hg, h => by
    obtain ⟨next, v, hnext, h⟩ := gatherAll_cons h
    exact reads_gatherAll ss (reads_gather s hg hnext) h

end

mutual

/-- **An operand whose flag is set occurs in the template.** -/
theorem marks_compile : (s : Sexp) → ∀ {u u' : Flags d} {t : Template},
    compile d s u = .ok (t, u') → Marks u u' t.operands
  | .atom name guards, u, u', t, h => by
    rw [compile] at h
    exact (reads_ofName h).2
  | .app name guards args, u, u', t, h =>
    (compile_app h).marks (marks_compileAll args) fun hg => (keeps_gatherAll args hg).marks

theorem marks_compileAll : (ss : List Sexp) → ∀ {u u' : Flags d} {ts : List Template},
    compileAll d ss u = .ok (ts, u') → Marks u u' (ts.flatMap operands)
  | [], u, u', ts, h => by
    obtain ⟨rfl, rfl⟩ := compileAll_nil h
    exact marks_refl _ _
  | s :: ss, u, u', ts, h => by
    obtain ⟨t, us, v, ht, hus, rfl⟩ := compileAll_cons h
    rw [List.flatMap_cons]
    exact ((marks_compile s ht).mono (List.subset_append_left _ _)).trans
      ((marks_compileAll ss hus).mono (List.subset_append_right _ _))

/-- Nothing that was gathered before is lost, and an operand whose flag is set is added to it. -/
theorem keeps_gather : (s : Sexp) → ∀ {negated : Bool} {g g' : Gathered} {u u' : Flags d},
    gather d negated g s u = .ok (g', u') → g.Keeps g' u u'
  | .atom name guards, negated, g, g', u, u', h => by
    rw [gather] at h
    exact Gathered.keeps_pushName h
  | .app name guards args, negated, g, g', u, u', h => by
    obtain ⟨op, -, hall⟩ | ⟨-, t, ht, rfl⟩ := gather_app h
    · exact keeps_gatherAll args hall
    · exact Gathered.keeps_push ((compile_app ht).marks (marks_compileAll args)
        fun hg => (keeps_gatherAll args hg).marks)

theorem keeps_gatherAll : (ss : List Sexp) → ∀ {op : AdditiveOp} {negated : Bool}
    {position : Nat} {g g' : Gathered} {u u' : Flags d},
    gatherAll d op negated position g ss u = .ok (g', u') → g.Keeps g' u u'
  | [], op, negated, position, g, g', u, u', h => by
    obtain ⟨rfl, rfl⟩ := gatherAll_nil h
    exact ⟨fun _ hop => hop, marks_refl _ _⟩
  | s :: ss, op, negated, position, g, g', u, u', h => by
    obtain ⟨next, v, hnext, h⟩ := gatherAll_cons h
    exact (keeps_gather s hnext).trans (keeps_gatherAll ss h)

end

/-- An input that is not reported as unused has its flag set. -/
theorem flag_of_unusedInput {used : Flags d} (h : unusedInput? d used = none)
    {i : Fin d.operands.length} (hi : (d.operands.get i).isInput = true) : used.get i = true := by
  rw [unusedInput?, Option.map_eq_none_iff, List.find?_eq_none] at h
  have hflag := h i (List.mem_finRange i)
  rw [hi, Bool.true_and, Bool.not_eq_true, Bool.not_eq_false'] at hflag
  exact hflag

/-- What it takes for an S-expression to give a template. -/
theorem ofSexp_eq_ok {s : Sexp} {t : Template} (h : ofSexp d s = .ok t) :
    ∃ used, compile d s (.replicate _ false) = .ok (t, used) ∧ unusedInput? d used = none ∧
      t.isOperator = true := by
  rw [ofSexp] at h
  split at h
  · cases h
  rename_i compiled used hcompile
  split at h
  · cases h
  rename_i hused
  split at h
  · rename_i hoperator
    obtain rfl := Except.ok.inj h
    exact ⟨used, hcompile, hused, hoperator⟩
  · cases h

theorem ofText_eq_ok {text : String} {t : Template} (h : ofText d text = .ok t) :
    ∃ s, Sexp.ofText text = .ok s ∧ ofSexp d s = .ok t := by
  rw [ofText] at h
  split at h
  · cases h
  · rename_i s hs
    exact ⟨s, hs, h⟩

/-- All inputs occur in the template of an S-expression: their flags were not set in the beginning
and are in the end. -/
theorem occurs_of_ofSexp {s : Sexp} {t : Template} (h : ofSexp d s = .ok t) {op : Operand}
    (hop : op ∈ d.inputs) : op ∈ t.operands := by
  obtain ⟨used, hcompile, hused, -⟩ := ofSexp_eq_ok h
  obtain ⟨hmem, hinput⟩ := List.mem_filter.mp hop
  obtain ⟨i, hi, rfl⟩ := List.getElem_of_mem hmem
  have hflag := flag_of_unusedInput hused (i := ⟨i, hi⟩) hinput
  rcases marks_compile s hcompile ⟨i, hi⟩ hflag with hbefore | hoccurs
  · cases (Vector.getElem_replicate hi).symm.trans hbefore
  · exact hoccurs

/-- **A compiled template reads inputs of its definition according to their kinds, all of them occur
in it, and its topmost part is an operator.** -/
theorem compiled_ofText {text : String} {t : Template} (h : ofText d text = .ok t) :
    t.Reads d.inputs ∧ (∀ op ∈ d.inputs, op ∈ t.operands) ∧ t.isOperator = true := by
  obtain ⟨s, -, hs⟩ := ofText_eq_ok h
  obtain ⟨used, hcompile, -, hoperator⟩ := ofSexp_eq_ok hs
  exact ⟨reads_compile s hcompile, fun op hop => occurs_of_ofSexp hs hop, hoperator⟩

theorem reads_ofText {text : String} {t : Template} (h : ofText d text = .ok t) :
    t.Reads d.operands ∧ t.isOperator = true :=
  ⟨(compiled_ofText h).1.mono fun _ hop => (List.mem_filter.mp hop).1, (compiled_ofText h).2.2⟩

end Template
end CustomIsa
