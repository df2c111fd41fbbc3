import CustomIsa.Proofs.Template.Arity
/-! # What templates compute

The text of a template has a value at every assignment of integers to the operands: an addition adds
its operands, a subtraction takes the second from the first, and all other operators have any fixed
meaning (`Sexp.value?`). Compiling flattens nested additions, subtractions and negations into sums
of signed terms, folds their literals and lets an immediate absorb the constant. None of this
changes the value (`Template.meaning_of_ofText`).

The invariant is about a sum that is being gathered: an S-expression adds its value to that of the
parts so far, with the sign that the operators around it leave it (`Template.value_gather`). -/
namespace CustomIsa
open Template

/-- What the operators mean that are not gathered into sums. -/
structure Interpretation where
  monadic : MonadicOp → Int → Int
  dyadic : DyadicOp → Int → Int → Int

/-- The value, or its negation. -/
def withSign (negated : Bool) (value : Int) : Int := if negated then -value else value

theorem withSign_zero (negated : Bool) : withSign negated 0 = 0 := by
  cases negated <;> rfl

theorem withSign_add (negated : Bool) (v w : Int) :
    withSign negated (v + w) = withSign negated v + withSign negated w := by
  cases negated
  · rfl
  · exact Int.neg_add

theorem withSign_withSign (negated negated' : Bool) (v : Int) :
    withSign negated (withSign negated' v) = withSign (negated ^^ negated') v := by
  cases negated <;> cases negated' <;> simp [withSign]

/-! ## The value of an S-expression -/

/-- What the operator of the given name makes of the values of its operands. -/
def Interpretation.result? (I : Interpretation) (head : String) (values : List Int) : Option Int :=
  match head, values with
  | "add", v :: w :: vs => some (v + w + vs.foldr (· + ·) 0)
  | "sub", [v, w] => some (v - w)
  | "neg", [v] => some (-v)
  | head, values =>
    if Sexp.isAdditive head then none
    else match values with
      | [v] => (monadicOfName? head).map (I.monadic · v)
      | [v, w] => (dyadicOfName? head).map (I.dyadic · v w)
      | _ => none

namespace Sexp

mutual

/-- The value of an S-expression as it is written, where names that are no literals stand for the
operands of a definition. -/
def value? (d : Definition) (I : Interpretation) (env : Operand → Int) : Sexp → Option Int
  | .atom name _ => (literal? name).or ((d.operand? name).map env)
  | .app head _ args => (values? d I env args).bind (I.result? head)

/-- The values of a list of S-expressions. -/
def values? (d : Definition) (I : Interpretation) (env : Operand → Int) :
    List Sexp → Option (List Int)
  | [] => some []
  | s :: ss => (s.value? d I env).bind fun v => (values? d I env ss).map (v :: ·)

end

end Sexp

/-! ## The value of a template -/

namespace Template

mutual

/-- The value of a template; a sum is its signed terms, its constant and its immediate. -/
def value (I : Interpretation) (env : Operand → Int) : Template → Int
  | .register _ op | .immediate _ op => env op
  | .const _ value => value
  | .monadic _ op a => I.monadic op (a.value I env)
  | .dyadic _ op a b => I.dyadic op (a.value I env) (b.value I env)
  | .sum _ terms constant absorber =>
    valueOfTerms I env terms + constant + (absorber.map env).getD 0

/-- The value of signed terms. -/
def valueOfTerms (I : Interpretation) (env : Operand → Int) : List (Bool × Template) → Int
  | [] => 0
  | (negated, t) :: ts => withSign negated (t.value I env) + valueOfTerms I env ts

end

variable {d : Definition} {I : Interpretation} {env : Operand → Int}

theorem value_addGuards (t : Template) (more : List Guard) :
    (t.addGuards more).value I env = t.value I env := by
  cases t <;> simp only [addGuards, value]

theorem valueOfTerms_append (ts us : List (Bool × Template)) :
    valueOfTerms I env (ts ++ us) = valueOfTerms I env ts + valueOfTerms I env us := by
  induction ts with
  | nil => simp only [List.nil_append, valueOfTerms, Int.zero_add]
  | cons t ts ih => simp only [List.cons_append, valueOfTerms, ih, Int.add_assoc]

/-! ## The value of a sum while it is gathered -/

/-- The value of the parts of a sum. -/
def Gathered.value (I : Interpretation) (env : Operand → Int) (g : Gathered) : Int :=
  valueOfTerms I env g.terms + g.constant + (g.absorber.map env).getD 0

theorem Gathered.value_push (g : Gathered) (negated : Bool) (t : Template) :
    (g.push negated t).value I env = g.value I env + withSign negated (t.value I env) := by
  simp only [push, Gathered.value, valueOfTerms_append, valueOfTerms]
  omega

theorem Gathered.value_toTemplate {g : Gathered} {guards : List Guard} {t : Template}
    (h : g.toTemplate guards = .ok t) : t.value I env = g.value I env := by
  rw [toTemplate] at h
  split at h
  · cases h
  · rename_i inner hterms hconstant habsorber
    obtain rfl := Except.ok.inj h
    rw [value_addGuards]
    simp [Gathered.value, hterms, hconstant, habsorber, valueOfTerms, withSign]
  · obtain rfl := Except.ok.inj h
    rw [Template.value, Gathered.value]

theorem value_ofName {guards : List Guard} {name : String} {t : Template} {u u' : Flags d}
    (h : ofName d guards name u = .ok (t, u')) :
    (Sexp.atom name guards).value? d I env = some (t.value I env) := by
  rw [Sexp.value?]
  obtain ⟨value, hliteral, rfl, -⟩ | ⟨hliteral, op, hop, rfl⟩ := ofName_eq_ok h
  · rw [hliteral, Template.value, Option.some_or]
  · rw [hliteral, (inputNamed_eq_ok hop).1, ofOperand]
    cases op.kind <;> simp only [Template.value, Option.none_or, Option.map_some]

/-- A name adds its value, with its sign, to the sum around it; an operand whose name is a literal
could be taken for an immediate here. -/
theorem Gathered.value_pushName {g g' : Gathered} {negated : Bool} {guards : List Guard}
    {name : String} {u u' : Flags d} (hnames : ∀ op ∈ d.operands, Sexp.literal? op.name = none)
    (h : g.pushName d negated guards name u = .ok (g', u')) :
    ∃ v, (Sexp.atom name guards).value? d I env = some v ∧
      g'.value I env = g.value I env + withSign negated v := by
  cases adds_of_pushName h with
  | literal hvalue =>
    refine ⟨_, by rw [Sexp.value?, hvalue, Option.some_or], ?_⟩
    simp only [Gathered.value, withSign]
    omega
  | @immediate _ _ op _ _ hread _ hsign hfree =>
    have hop := (inputNamed_eq_ok hread).1
    obtain ⟨hmem, rfl⟩ := Definition.mem_of_operand hop
    refine ⟨env op, by rw [Sexp.value?, hnames op hmem, hop, Option.none_or, Option.map_some], ?_⟩
    simp [Gathered.value, hsign, hfree, withSign]
  | term _ _ ht => exact ⟨_, value_ofName ht, g.value_push negated _⟩

/-! ## Signs by position -/

/-- What an additive operator makes of operands from a position on. -/
def AdditiveOp.total (op : AdditiveOp) : Nat → List Int → Int
  | _, [] => 0
  | position, v :: vs => withSign (op.negates position) v + op.total (position + 1) vs

theorem AdditiveOp.total_add (position : Nat) (vs : List Int) :
    AdditiveOp.add.total position vs = vs.foldr (· + ·) 0 := by
  induction vs generalizing position with
  | nil => rfl
  | cons v vs ih => rw [total, ih, List.foldr_cons, negates, withSign, if_neg Bool.false_ne_true]

/-- With as many operands as documented, the signs by position give the value of the operator. -/
theorem result_additive {head : String} {op : AdditiveOp} {values : List Int} {gathered : Bool}
    (hname : AdditiveOp.ofName? head = some op)
    (hcount : (Sexp.Application.mk head values.length gathered).Documented) :
    I.result? head values = some (op.total 0 values) := by
  unfold AdditiveOp.ofName? at hname
  split at hname
  · obtain rfl := Option.some.inj hname
    have hlength : 2 ≤ values.length := by
      simpa [Sexp.Application.Documented, Sexp.dyadicNames] using hcount
    rcases values with _ | ⟨v, _ | ⟨w, vs⟩⟩
    · exact absurd hlength (Nat.not_succ_le_zero 1)
    · exact absurd hlength (Nat.not_succ_le_self 1)
    · rw [AdditiveOp.total_add, List.foldr_cons, List.foldr_cons, ← Int.add_assoc]
      rfl
  · obtain rfl := Option.some.inj hname
    have hlength : values.length = 2 := by
      simpa [Sexp.Application.Documented, Sexp.dyadicNames] using hcount
    obtain ⟨v, w, rfl⟩ := List.length_eq_two.mp hlength
    simp [Interpretation.result?, AdditiveOp.total, AdditiveOp.negates, withSign,
      Int.sub_eq_add_neg]
  · obtain rfl := Option.some.inj hname
    have hlength : values.length = 1 := by
      simpa [Sexp.Application.Documented, Sexp.dyadicNames] using hcount
    obtain ⟨v, rfl⟩ := List.length_eq_one_iff.mp hlength
    simp [Interpretation.result?, AdditiveOp.total, AdditiveOp.negates, withSign]
  · cases hname

theorem result_plain {head : String} (h : AdditiveOp.ofName? head = none) (values : List Int) :
    I.result? head values = match values with
      | [v] => (monadicOfName? head).map (I.monadic · v)
      | [v, w] => (dyadicOfName? head).map (I.dyadic · v w)
      | _ => none := by
  unfold Interpretation.result?
  split
  · cases h
  · cases h
  · cases h
  · rw [not_isAdditive_of_ofName h, if_neg Bool.false_ne_true]

theorem result_monadic {head : String} {op : MonadicOp} (h : Head.ofName? head = some (.monadic op))
    (v : Int) : I.result? head [v] = some (I.monadic op v) := by
  obtain ⟨hadditive, -, hop⟩ := Head.ofName_monadic.mp h
  rw [result_plain hadditive, hop]
  rfl

theorem result_dyadic {head : String} {op : DyadicOp} (h : Head.ofName? head = some (.dyadic op))
    (v w : Int) : I.result? head [v, w] = some (I.dyadic op v w) := by
  obtain ⟨hadditive, hop⟩ := Head.ofName_dyadic.mp h
  rw [result_plain hadditive, hop]
  rfl

/-! ## Compiling -/

theorem values_cons {s : Sexp} {ss : List Sexp} {v : Int} {vs : List Int}
    (hs : s.value? d I env = some v) (hss : Sexp.values? d I env ss = some vs) :
    Sexp.values? d I env (s :: ss) = some (v :: vs) := by
  rw [Sexp.values?, hs, hss, Option.bind_some, Option.map_some]

theorem length_values {ss : List Sexp} {vs : List Int} (h : Sexp.values? d I env ss = some vs) :
    vs.length = ss.length := by
  induction ss generalizing vs with
  | nil =>
    rw [Sexp.values?] at h
    obtain rfl := Option.some.inj h
    rfl
  | cons s ss ih =>
    rw [Sexp.values?] at h
    obtain ⟨v, -, h⟩ := Option.bind_eq_some_iff.mp h
    obtain ⟨us, hus, rfl⟩ := Option.map_eq_some_iff.mp h
    rw [List.length_cons, List.length_cons, ih hus]

/-- The additive operators among the applications have as many operands as documented. -/
def AdditionsDocumented (applications : List Sexp.Application) : Prop :=
  ∀ a ∈ applications, Sexp.isAdditive a.head = true → a.Documented

/-- The value of an operator that was applied, from what its operands give. -/
theorem value_applied {head : String} {guards : List Guard} {args : List Sexp}
    {sum : AdditiveOp → Compiling d Gathered} {t : Template} {u u' : Flags d}
    (hargs : ∀ {ts}, compileAll d args u = .ok (ts, u') →
      Sexp.values? d I env args = some (ts.map (value I env)))
    (hsum : ∀ {op g}, sum op u = .ok (g, u') → ∃ vs, Sexp.values? d I env args = some vs ∧
      g.value I env = Gathered.value I env {} + withSign false (op.total 0 vs))
    (h : Applied head guards args.length (compileAll d args) sum u u' t) :
    (Sexp.app head guards args).value? d I env = some (t.value I env) := by
  rw [Sexp.value?]
  cases h with
  | additive hhead harity hg ht =>
    have hname := Head.ofName_additive.mp hhead
    obtain ⟨vs, hvs, hvalue⟩ := hsum hg
    have hcount := documented_of_checkArity hname harity false
    rw [← length_values hvs] at hcount
    rw [hvs, Option.bind_some, result_additive hname hcount, Gathered.value_toTemplate ht, hvalue]
    simp [Gathered.value, valueOfTerms, withSign]
  | monadic hhead hts =>
    rw [hargs hts, Option.bind_some, Template.value]
    exact result_monadic hhead _
  | dyadic hhead hts =>
    rw [hargs hts, Option.bind_some, Template.value]
    exact result_dyadic hhead _ _

mutual

/-- An S-expression that is a part of its own has the value of its template. -/
theorem value_compile (hnames : ∀ op ∈ d.operands, Sexp.literal? op.name = none) :
    (s : Sexp) → ∀ {u u' : Flags d} {t : Template} {inSum : Bool},
    AdditionsDocumented (s.applicationsIn inSum) → compile d s u = .ok (t, u') →
    s.value? d I env = some (t.value I env)
  | .atom name guards, u, u', t, inSum, hdoc, h => by
    rw [compile] at h
    exact value_ofName h
  | .app head guards args, u, u', t, inSum, hdoc, h => by
    rw [Sexp.applicationsIn] at hdoc
    have hrest := (List.forall_mem_cons.mp hdoc).2
    exact value_applied (value_compileAll hnames args hrest) (value_gatherAll hnames args hrest)
      (compile_app h)

theorem value_compileAll (hnames : ∀ op ∈ d.operands, Sexp.literal? op.name = none) :
    (ss : List Sexp) → ∀ {u u' : Flags d} {ts : List Template} {inSum : Bool},
    AdditionsDocumented (Sexp.applicationsOfAll inSum ss) → compileAll d ss u = .ok (ts, u') →
    Sexp.values? d I env ss = some (ts.map (value I env))
  | [], u, u', ts, inSum, hdoc, h => by
    obtain ⟨rfl, -⟩ := compileAll_nil h
    rw [Sexp.values?, List.map_nil]
  | s :: ss, u, u', ts, inSum, hdoc, h => by
    obtain ⟨t, us, v, ht, hus, rfl⟩ := compileAll_cons h
    rw [Sexp.applicationsOfAll] at hdoc
    obtain ⟨hs, hss⟩ := List.forall_mem_append.mp hdoc
    exact values_cons (value_compile hnames s hs ht) (value_compileAll hnames ss hss hus)

/-- An S-expression in a sum adds its value, with the sign it is gathered with. -/
theorem value_gather (hnames : ∀ op ∈ d.operands, Sexp.literal? op.name = none) :
    (s : Sexp) → ∀ {negated : Bool} {g g' : Gathered} {u u' : Flags d} {inSum : Bool},
    AdditionsDocumented (s.applicationsIn inSum) → gather d negated g s u = .ok (g', u') →
    ∃ v, s.value? d I env = some v ∧ g'.value I env = g.value I env + withSign negated v
  | .atom name guards, negated, g, g', u, u', inSum, hdoc, h => by
    rw [gather] at h
    exact g.value_pushName hnames h
  | .app head guards args, negated, g, g', u, u', inSum, hdoc, h => by
    rw [Sexp.applicationsIn] at hdoc
    obtain ⟨hself, hrest⟩ := List.forall_mem_cons.mp hdoc
    obtain ⟨op, hnested, hall⟩ | ⟨-, t, ht, rfl⟩ := gather_app h
    · -- A nested additive operator: its signs by position are its value, by the number of operands.
      obtain ⟨rfl, hname⟩ := nestedOp_eq_some.mp hnested
      obtain ⟨vs, hvs, hvalue⟩ := value_gatherAll hnames args hrest hall
      have hcount := hself (isAdditive_of_ofName hname)
      rw [← length_values hvs] at hcount
      refine ⟨op.total 0 vs, ?_, hvalue⟩
      rw [Sexp.value?, hvs, Option.bind_some, result_additive hname hcount]
    · refine ⟨t.value I env, ?_, g.value_push negated t⟩
      exact value_applied (value_compileAll hnames args hrest) (value_gatherAll hnames args hrest)
        (compile_app ht)

/-- The operands of an additive operator add their total, with the sign of the operator. -/
theorem value_gatherAll (hnames : ∀ op ∈ d.operands, Sexp.literal? op.name = none) :
    (ss : List Sexp) → ∀ {op : AdditiveOp} {negated : Bool} {position : Nat} {g g' : Gathered}
    {u u' : Flags d} {inSum : Bool}, AdditionsDocumented (Sexp.applicationsOfAll inSum ss) →
    gatherAll d op negated position g ss u = .ok (g', u') →
    ∃ vs, Sexp.values? d I env ss = some vs ∧
      g'.value I env = g.value I env + withSign negated (op.total position vs)
  | [], op, negated, position, g, g', u, u', inSum, hdoc, h => by
    obtain ⟨rfl, -⟩ := gatherAll_nil h
    exact ⟨[], by rw [Sexp.values?], by rw [AdditiveOp.total, withSign_zero, Int.add_zero]⟩
  | s :: ss, op, negated, position, g, g', u, u', inSum, hdoc, h => by
    obtain ⟨next, w, hs, hss⟩ := gatherAll_cons h
    rw [Sexp.applicationsOfAll] at hdoc
    obtain ⟨hdocs, hdocss⟩ := List.forall_mem_append.mp hdoc
    obtain ⟨v, hv, hnext⟩ := value_gather hnames s hdocs hs
    obtain ⟨vs, hvs, hlast⟩ := value_gatherAll hnames ss hdocss hss
    refine ⟨v :: vs, values_cons hv hvs, ?_⟩
    rw [hlast, hnext, AdditiveOp.total, withSign_add, withSign_withSign, Int.add_assoc]

end

/-- **Compiling keeps the meaning.** Where no operand has the name of a literal, and additions,
subtractions and negations have as many operands as documented, the template has the value of its
text at all values of the operands and for all meanings of the other operators, and all inputs occur
in it. -/
theorem meaning_of_ofText {text : String} {s : Sexp} {t : Template}
    (hnames : ∀ op ∈ d.operands, Sexp.literal? op.name = none)
    (hs : Sexp.ofText text = .ok s) (h : ofText d text = .ok t)
    (hdoc : ∀ a ∈ s.applications, Sexp.isAdditive a.head = true → a.Documented) :
    (∀ I env, s.value? d I env = some (t.value I env)) ∧ ∀ op ∈ d.inputs, op ∈ t.operands := by
  obtain ⟨used, hcompile⟩ := compile_of_ofText hs h
  exact ⟨fun I env => value_compile hnames s hdoc hcompile, (compiled_ofText h).2.1⟩

/-- Two changes of sign at different depths, a folded literal and an absorbing immediate. -/
theorem meaning_of_ofText_nested :
    ∃ s t, Sexp.ofText "(sub (add rd is3 (neg (sub rs1 (neg rs2)))) 5)" = .ok s ∧
      ofText ⟨"t", .standard, Bundled.macOperands, Bundled.shiftForm 0 6, none, none, none⟩
        "(sub (add rd is3 (neg (sub rs1 (neg rs2)))) 5)" = .ok t ∧
      t.value ⟨fun _ v => v, fun _ v _ => v⟩ (fun op => op.width) = 32 + 5 - (16 + 16) - 5 ∧
      ∀ op ∈ Bundled.macOperands.filter Operand.isInput, op ∈ t.operands := by
  obtain ⟨s, t, hs, ht, htest⟩ := exists_of_compiles
    ⟨"t", .standard, Bundled.macOperands, Bundled.shiftForm 0 6, none, none, none⟩
    "(sub (add rd is3 (neg (sub rs1 (neg rs2)))) 5)"
    (fun s => (s.applications.all fun a => !Sexp.isAdditive a.head || decide a.Documented) &&
      s.value? ⟨"t", .standard, Bundled.macOperands, Bundled.shiftForm 0 6, none, none, none⟩
        ⟨fun _ v => v, fun _ v _ => v⟩ (fun op => op.width) = some (32 + 5 - (16 + 16) - 5))
    (by decide +kernel)
  obtain ⟨hall, hvalue⟩ := Bool.and_eq_true_iff.mp htest
  have hdoc : ∀ a ∈ s.applications, Sexp.isAdditive a.head = true → a.Documented := by
    intro a ha hadditive
    have htrue := List.all_eq_true.mp hall a ha
    rw [hadditive] at htrue
    exact of_decide_eq_true htrue
  obtain ⟨hmeaning, hoccurs⟩ := meaning_of_ofText (by decide +kernel) hs ht hdoc
  exact ⟨s, t, hs, ht, Option.some.inj ((hmeaning _ _).symm.trans (of_decide_eq_true hvalue)),
    hoccurs⟩

end Template
end CustomIsa
