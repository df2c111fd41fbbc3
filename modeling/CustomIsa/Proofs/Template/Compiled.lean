import CustomIsa.Proofs.Template
import CustomIsa.Proofs.Template.Written
/-! # Compiling, operator by operator

What a template compiles to is known from its operands. An operator that is no addition, subtraction
or negation applies to its operands compiled one by one (`Template.applied_of_apply`); in a sum
around it, it is one term (`Template.gather_plain`). The others gather the terms of their operands
from left to right (`Template.gather_additive`), and a sum that comes to one added term is that term
(`Template.Gathered.toTemplate_eq_ok`). Every name that is no literal names an input
(`Template.input_of_compile`). -/
namespace CustomIsa
namespace Template
variable {d : Definition} {u u' : Flags d}

/-! ## The size of sums -/

mutual

/-- The number of terms of the largest sum in the template. -/
def largestSum : Template → Nat
  | .register _ _ | .immediate _ _ | .const _ _ => 0
  | .monadic _ _ a => a.largestSum
  | .dyadic _ _ a b => max a.largestSum b.largestSum
  | .sum _ terms _ _ => max terms.length (largestSumOf terms)

/-- The number of terms of the largest sum in the terms. -/
def largestSumOf : List (Bool × Template) → Nat
  | [] => 0
  | (_, t) :: ts => max t.largestSum (largestSumOf ts)

end

theorem largestSumOf_append (ts us : List (Bool × Template)) :
    largestSumOf (ts ++ us) = max (largestSumOf ts) (largestSumOf us) := by
  induction ts with
  | nil => rw [List.nil_append, largestSumOf, Nat.zero_max]
  | cons t ts ih => rw [List.cons_append, largestSumOf, ih, largestSumOf, Nat.max_assoc]

theorem largestSumOf_singleton (negated : Bool) (t : Template) :
    largestSumOf [(negated, t)] = t.largestSum := by
  rw [largestSumOf, largestSumOf, Nat.max_zero]

/-! ## Operators -/

theorem Head.ofName_additive {name : String} {op : AdditiveOp} :
    Head.ofName? name = some (.additive op) ↔ AdditiveOp.ofName? name = some op := by
  rw [Head.ofName?]
  cases AdditiveOp.ofName? name <;> cases dyadicOfName? name <;> simp

theorem Head.ofName_dyadic {name : String} {op : DyadicOp} :
    Head.ofName? name = some (.dyadic op) ↔
      AdditiveOp.ofName? name = none ∧ dyadicOfName? name = some op := by
  rw [Head.ofName?]
  cases AdditiveOp.ofName? name <;> cases dyadicOfName? name <;> simp

theorem Head.ofName_monadic {name : String} {op : MonadicOp} :
    Head.ofName? name = some (.monadic op) ↔ AdditiveOp.ofName? name = none ∧
      dyadicOfName? name = none ∧ monadicOfName? name = some op := by
  rw [Head.ofName?]
  cases AdditiveOp.ofName? name <;> cases dyadicOfName? name <;> simp

theorem compile_additive {name : String} {guards : List Guard} {args : List Sexp} {op : AdditiveOp}
    {t : Template} (hhead : Head.ofName? name = some (.additive op))
    (h : compile d (.app name guards args) u = .ok (t, u')) :
    checkArity name (.additive op) args.length = .ok () ∧
      ∃ g, gatherAll d op false 0 {} args u = .ok (g, u') ∧ g.toTemplate guards = .ok t := by
  cases compile_app h with
  | additive hhead' harity hsum ht =>
    cases hhead.symm.trans hhead'
    exact ⟨harity, _, hsum, ht⟩
  | monadic hhead' | dyadic hhead' => cases hhead.symm.trans hhead'

theorem compile_monadic {name : String} {guards : List Guard} {s : Sexp} {op : MonadicOp}
    {t : Template} (hhead : Head.ofName? name = some (.monadic op))
    (h : compile d (.app name guards [s]) u = .ok (t, u')) :
    ∃ a v, compile d s u = .ok (a, v) ∧ t = .monadic guards op a := by
  cases compile_app h with
  | monadic hhead' hargs =>
    cases hhead.symm.trans hhead'
    obtain ⟨a, us, v, ha, -, heq⟩ := compileAll_cons hargs
    cases heq
    exact ⟨_, v, ha, rfl⟩
  | additive hhead' | dyadic hhead' => cases hhead.symm.trans hhead'

theorem compile_dyadic {name : String} {guards : List Guard} {s s' : Sexp} {op : DyadicOp}
    {t : Template} (hhead : Head.ofName? name = some (.dyadic op))
    (h : compile d (.app name guards [s, s']) u = .ok (t, u')) :
    ∃ a b v w, compile d s u = .ok (a, v) ∧ compile d s' v = .ok (b, w) ∧
      t = .dyadic guards op a b := by
  cases compile_app h with
  | dyadic hhead' hargs =>
    cases hhead.symm.trans hhead'
    obtain ⟨a, us, v, ha, hus, heq⟩ := compileAll_cons hargs
    obtain ⟨b, _, w, hb, -, rfl⟩ := compileAll_cons hus
    cases heq
    exact ⟨_, _, v, w, ha, hb, rfl⟩
  | additive hhead' | monadic hhead' => cases hhead.symm.trans hhead'

/-! ## Sums -/

theorem additive_eq_none {name : String} {head : Head} (h : Head.ofName? name = some head)
    (hplain : ∀ op, head ≠ .additive op) : AdditiveOp.ofName? name = none := by
  rw [Head.ofName?] at h
  cases hop : AdditiveOp.ofName? name with
  | none => rfl
  | some op =>
    rw [hop] at h
    exact absurd (Option.some.inj h).symm (hplain op)

theorem nestedOp_eq_some {name : String} {guards : List Guard} {op : AdditiveOp} :
    nestedOp? name guards = some op ↔ guards = [] ∧ AdditiveOp.ofName? name = some op := by
  rw [nestedOp?]
  split <;> simp_all

theorem gather_additive {name : String} {op : AdditiveOp} (h : AdditiveOp.ofName? name = some op)
    (negated : Bool) (g : Gathered) (args : List Sexp) :
    gather d negated g (.app name [] args) = gatherAll d op negated 0 g args := by
  rw [gather, nestedOp?, if_pos rfl, h]

theorem gather_plain {name : String} {args : List Sexp} {negated : Bool} {g g' : Gathered}
    (hname : AdditiveOp.ofName? name = none)
    (h : gather d negated g (.app name [] args) u = .ok (g', u')) :
    ∃ t, compile d (.app name [] args) u = .ok (t, u') ∧ g' = g.push negated t := by
  obtain ⟨op, hop, -⟩ | ⟨-, hterm⟩ := gather_app h
  · cases hname.symm.trans (nestedOp_eq_some.mp hop).2
  · exact hterm

/-- The last operand of a sum is gathered last. -/
theorem gatherAll_concat {op : AdditiveOp} {negated : Bool} {position : Nat} {g g' : Gathered}
    {ss : List Sexp} {s : Sexp}
    (h : gatherAll d op negated position g (ss ++ [s]) u = .ok (g', u')) :
    ∃ next v, gatherAll d op negated position g ss u = .ok (next, v) ∧
      gather d (negated ^^ op.negates (position + ss.length)) next s v = .ok (g', u') := by
  induction ss generalizing position g u with
  | nil =>
    obtain ⟨next, v, hs, hnil⟩ := gatherAll_cons h
    obtain ⟨rfl, rfl⟩ := gatherAll_nil hnil
    exact ⟨g, u, by rw [gatherAll]; rfl, hs⟩
  | cons s' ss ih =>
    obtain ⟨first, w, hfirst, hrest⟩ := gatherAll_cons h
    obtain ⟨next, v, hss, hs⟩ := ih hrest
    refine ⟨next, v, ?_, ?_⟩
    · rw [gatherAll]
      show (gather d _ g s' u >>= fun step =>
        gatherAll d op negated (position + 1) step.1 ss step.2) = _
      rw [hfirst]
      exact hss
    · rw [List.length_cons, ← Nat.add_assoc, Nat.add_right_comm]
      exact hs

theorem addGuards_nil (t : Template) : t.addGuards [] = t := by
  cases t <;> simp only [addGuards, List.append_nil]

/-- Without constants and immediates, one added term stands for itself, and any other terms give
their sum. -/
theorem Gathered.toTemplate_eq_ok {ts : List (Bool × Template)} {t : Template}
    (h : Gathered.toTemplate { terms := ts } [] = .ok t) :
    ts = [(false, t)] ∨ t = .sum [] ts 0 none ∧ ts ≠ [] ∧ ∀ u, ts ≠ [(false, u)] := by
  rw [toTemplate] at h
  split at h
  · cases h
  · rename_i u hterms _ _
    obtain rfl := Except.ok.inj h
    rw [addGuards_nil]
    exact .inl hterms
  · rename_i hempty hsingle
    obtain rfl := Except.ok.inj h
    exact .inr ⟨rfl, fun hnil => hempty hnil, fun u hu => hsingle u hu rfl rfl⟩

theorem compile_of_ofText {text : String} {s : Sexp} {t : Template} (hs : Sexp.ofText text = .ok s)
    (h : ofText d text = .ok t) : ∃ used, compile d s (.replicate _ false) = .ok (t, used) := by
  obtain ⟨s', hs', ht⟩ := ofText_eq_ok h
  obtain rfl := Except.ok.inj (hs.symm.trans hs')
  obtain ⟨used, hcompile, -⟩ := ofSexp_eq_ok ht
  exact ⟨used, hcompile⟩

/-! ## Names -/

theorem input_of_ofName {guards : List Guard} {name : String} {t : Template}
    (hliteral : Sexp.literal? name = none) (h : ofName d guards name u = .ok (t, u')) :
    ∃ op ∈ d.inputs, op.name = name ∧ t = ofOperand guards op := by
  obtain ⟨value, hvalue, -⟩ | ⟨-, op, hop, rfl⟩ := ofName_eq_ok h
  · cases hliteral.symm.trans hvalue
  · obtain ⟨hnamed, hinput, -⟩ := inputNamed_eq_ok hop
    exact ⟨op, hinput, (Definition.mem_of_operand hnamed).2, rfl⟩

theorem Gathered.pushName_eq_ok {g g' : Gathered} {negated : Bool} {guards : List Guard}
    {name : String} (hliteral : Sexp.literal? name = none)
    (h : g.pushName d negated guards name u = .ok (g', u')) :
    (∃ op ∈ d.inputs, op.name = name ∧ op.kind = .immediate) ∨
      ∃ t, ofName d guards name u = .ok (t, u') ∧ g' = g.push negated t := by
  cases adds_of_pushName h with
  | literal hvalue => cases hliteral.symm.trans hvalue
  | immediate _ hop hkind =>
    obtain ⟨hnamed, hinput, -⟩ := inputNamed_eq_ok hop
    exact .inl ⟨_, hinput, (Definition.mem_of_operand hnamed).2, hkind⟩
  | term _ _ ht => exact .inr ⟨_, ht, rfl⟩

section
variable {g g' : Gathered} {guards : List Guard} {op : Operand} (hd : d.Valid)
  (hop : op ∈ d.operands) (hliteral : Sexp.literal? op.name = none)
include hd hop hliteral

/-- The name of a register adds it as a term. -/
theorem Gathered.pushName_register {negated : Bool} (hkind : op.kind = .register)
    (h : g.pushName d negated guards op.name u = .ok (g', u')) :
    g' = g.push negated (.register guards op) := by
  cases adds_of_pushName h with
  | literal hvalue => cases hliteral.symm.trans hvalue
  | immediate _ hread himmediate =>
    obtain rfl := Option.some.inj ((hd.operand?_eq hop).symm.trans (inputNamed_eq_ok hread).1)
    cases hkind.symm.trans himmediate
  | term _ _ ht =>
    obtain ⟨op', hinput, hname, rfl⟩ := input_of_ofName hliteral ht
    rw [hd.operand_eq (List.mem_filter.mp hinput).1 hop hname, ofOperand, hkind]

/-- The name of an immediate lets it absorb the constant. -/
theorem Gathered.pushName_immediate (hkind : op.kind = .immediate)
    (h : g.pushName d false guards op.name u = .ok (g', u')) :
    g' = { g with absorber := some op } := by
  cases adds_of_pushName h with
  | literal hvalue => cases hliteral.symm.trans hvalue
  | immediate _ hread =>
    obtain rfl := Option.some.inj ((hd.operand?_eq hop).symm.trans (inputNamed_eq_ok hread).1)
    rfl
  | term _ hregister =>
    cases hkind.symm.trans (hregister op (hd.operand?_eq hop))

end

mutual

/-- **Every name in a template that compiles is a literal or names an input.** -/
theorem input_of_compile : (s : Sexp) → ∀ {u u' : Flags d} {t : Template},
    compile d s u = .ok (t, u') →
    ∀ name ∈ s.atoms, Sexp.literal? name = none → ∃ op ∈ d.inputs, op.name = name
  | .atom name guards, u, u', t, h, name', hname, hliteral => by
    rw [Sexp.atoms, List.mem_singleton] at hname
    subst hname
    rw [compile] at h
    obtain ⟨op, hop, heq, -⟩ := input_of_ofName hliteral h
    exact ⟨op, hop, heq⟩
  | .app head guards args, u, u', t, h, name, hname, hliteral => by
    rw [Sexp.atoms] at hname
    cases compile_app h with
    | additive _ _ hsum => exact input_of_gatherAll args hsum name hname hliteral
    | monadic _ hargs | dyadic _ hargs => exact input_of_compileAll args hargs name hname hliteral

theorem input_of_compileAll : (ss : List Sexp) → ∀ {u u' : Flags d} {ts : List Template},
    compileAll d ss u = .ok (ts, u') →
    ∀ name ∈ Sexp.atomsOfAll ss, Sexp.literal? name = none → ∃ op ∈ d.inputs, op.name = name
  | [], u, u', ts, h, name, hname, hliteral => by
    rw [Sexp.atomsOfAll] at hname
    cases hname
  | s :: ss, u, u', ts, h, name, hname, hliteral => by
    obtain ⟨t, us, v, ht, hus, -⟩ := compileAll_cons h
    rw [Sexp.atomsOfAll] at hname
    rcases List.mem_append.mp hname with hname | hname
    · exact input_of_compile s ht name hname hliteral
    · exact input_of_compileAll ss hus name hname hliteral

theorem input_of_gather : (s : Sexp) → ∀ {negated : Bool} {g g' : Gathered} {u u' : Flags d},
    gather d negated g s u = .ok (g', u') →
    ∀ name ∈ s.atoms, Sexp.literal? name = none → ∃ op ∈ d.inputs, op.name = name
  | .atom name guards, negated, g, g', u, u', h, name', hname, hliteral => by
    rw [Sexp.atoms, List.mem_singleton] at hname
    subst hname
    rw [gather] at h
    rcases Gathered.pushName_eq_ok hliteral h with ⟨op, hop, heq, -⟩ | ⟨t, ht, -⟩
    · exact ⟨op, hop, heq⟩
    · obtain ⟨op, hop, heq, -⟩ := input_of_ofName hliteral ht
      exact ⟨op, hop, heq⟩
  | .app head guards args, negated, g, g', u, u', h, name, hname, hliteral => by
    rw [Sexp.atoms] at hname
    obtain ⟨op, -, hall⟩ | ⟨-, t, ht, -⟩ := gather_app h
    · exact input_of_gatherAll args hall name hname hliteral
    · cases compile_app ht with
      | additive _ _ hsum => exact input_of_gatherAll args hsum name hname hliteral
      | monadic _ hargs | dyadic _ hargs =>
        exact input_of_compileAll args hargs name hname hliteral

theorem input_of_gatherAll : (ss : List Sexp) → ∀ {op : AdditiveOp} {negated : Bool}
    {position : Nat} {g g' : Gathered} {u u' : Flags d},
    gatherAll d op negated position g ss u = .ok (g', u') →
    ∀ name ∈ Sexp.atomsOfAll ss, Sexp.literal? name = none → ∃ op ∈ d.inputs, op.name = name
  | [], op, negated, position, g, g', u, u', h, name, hname, hliteral => by
    rw [Sexp.atomsOfAll] at hname
    cases hname
  | s :: ss, op, negated, position, g, g', u, u', h, name, hname, hliteral => by
    obtain ⟨next, v, hs, hss⟩ := gatherAll_cons h
    rw [Sexp.atomsOfAll] at hname
    rcases List.mem_append.mp hname with hname | hname
    · exact input_of_gather s hs name hname hliteral
    · exact input_of_gatherAll ss hss name hname hliteral

end

end Template
end CustomIsa
