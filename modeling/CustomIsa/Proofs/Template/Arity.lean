import CustomIsa.Bundled
import CustomIsa.Proofs.Template.Compiled
/-! # Numbers of operands in templates

Each operator of a template takes a fixed number of operands, and an addition two or more
(`Sexp.Application.Documented`). The compiler checks the number wherever an application is a part of
its own. An addition, subtraction or negation without guards that stands in another one is gathered
into the sum around it, and its operands are taken one by one, however many there are. So in a
template that compiles exactly those applications may have another number of operands than
documented (`Template.documented_of_ofText`). -/
namespace CustomIsa
namespace Sexp

/-- Whether the operator is gathered into sums. -/
def isAdditive (head : String) : Bool := head = "add" || head = "sub" || head = "neg"

/-- An application in an S-expression: its operator, the number of its operands, and whether it is
gathered into the sum around it. -/
structure Application where
  head : String
  count : Nat
  gathered : Bool
  deriving Repr, DecidableEq

mutual

/-- The applications in an S-expression, from left to right; `inSum` says whether it stands in a
sum. -/
def applicationsIn (inSum : Bool) : Sexp → List Application
  | .atom _ _ => []
  | .app head guards args =>
    ⟨head, args.length, inSum && guards.isEmpty && isAdditive head⟩ ::
      applicationsOfAll (isAdditive head) args

/-- The applications in a list of S-expressions. -/
def applicationsOfAll (inSum : Bool) : List Sexp → List Application
  | [] => []
  | s :: ss => s.applicationsIn inSum ++ applicationsOfAll inSum ss

end

/-- The applications in an S-expression that stands for itself. -/
def applications (s : Sexp) : List Application := s.applicationsIn false

/-- The operators that take two operands and are not gathered into sums. -/
def dyadicNames : List String :=
  ["mul", "and", "or", "xor", "shl", "shr", "max", "min", "lt", "le", "gt", "ge", "eq", "ne"]

/-- The operator takes so many operands: an addition at least two, a subtraction two, negation,
complement and truncation one, and all others two. -/
def Application.Documented (a : Application) : Prop :=
  a.head = "add" ∧ 2 ≤ a.count ∨ a.head = "sub" ∧ a.count = 2 ∨ a.head = "neg" ∧ a.count = 1 ∨
    (a.head = "not" ∨ "trunc".toList <+: a.head.toList) ∧ a.count = 1 ∨
    a.head ∈ dyadicNames ∧ a.count = 2

instance (a : Application) : Decidable a.Documented := inferInstanceAs (Decidable (_ ∨ _))

end Sexp

theorem Text.prefix_of_dropStem {stem cs rest : List Char} (h : dropStem? stem cs = some rest) :
    stem <+: cs := by
  induction stem generalizing cs with
  | nil => exact List.nil_prefix
  | cons s stem ih =>
    cases cs with
    | nil => cases h
    | cons c cs =>
      rw [dropStem?] at h
      split at h
      · rename_i heq
        rw [heq]
        exact (List.prefix_cons_inj c).mpr (ih h)
      · cases h

namespace Template
open Sexp
variable {d : Definition}

/-! ## Names of operators -/

theorem isAdditive_eq (head : String) : isAdditive head = (AdditiveOp.ofName? head).isSome := by
  unfold AdditiveOp.ofName?
  split
  · rfl
  · rfl
  · rfl
  · rename_i hadd hsub hneg
    simpa [isAdditive] using ⟨⟨hadd, hsub⟩, hneg⟩

theorem isAdditive_of_ofName {head : String} {op : AdditiveOp}
    (h : AdditiveOp.ofName? head = some op) : isAdditive head = true := by
  rw [isAdditive_eq, h]
  rfl

theorem not_isAdditive_of_ofName {head : String} (h : AdditiveOp.ofName? head = none) :
    isAdditive head = false := by
  rw [isAdditive_eq, h]
  rfl

theorem mem_dyadicNames {head : String} {op : DyadicOp} (h : dyadicOfName? head = some op) :
    head ∈ dyadicNames := by
  unfold dyadicOfName? at h
  split at h
  all_goals first | cases h; done | simp [dyadicNames]

theorem stem_of_monadicOfName {head : String} {op : MonadicOp} (h : monadicOfName? head = some op) :
    head = "not" ∨ "trunc".toList <+: head.toList := by
  rw [monadicOfName?] at h
  split at h
  · rename_i hnot
    exact .inl hnot
  · obtain ⟨bits, hbits, -⟩ := Option.map_eq_some_iff.mp h
    obtain ⟨rest, hrest, -⟩ := Option.bind_eq_some_iff.mp (Option.filter_eq_some_iff.mp hbits).1
    exact .inr (Text.prefix_of_dropStem hrest)

/-! ## Checked applications -/

theorem length_compileAll {ss : List Sexp} {ts : List Template} {u u' : Flags d}
    (h : compileAll d ss u = .ok (ts, u')) : ts.length = ss.length := by
  induction ss generalizing ts u with
  | nil =>
    obtain ⟨rfl, -⟩ := compileAll_nil h
    rfl
  | cons s ss ih =>
    obtain ⟨t, us, v, -, hus, rfl⟩ := compileAll_cons h
    rw [List.length_cons, List.length_cons, ih hus]

theorem documented_of_checkArity {name : String} {op : AdditiveOp} {count : Nat}
    (hname : AdditiveOp.ofName? name = some op)
    (h : checkArity name (.additive op) count = .ok ()) (gathered : Bool) :
    (Application.mk name count gathered).Documented := by
  unfold AdditiveOp.ofName? at hname
  split at hname
  · obtain rfl := Option.some.inj hname
    rw [checkArity] at h
    split at h
    · cases h
    · rename_i hcount
      exact .inl ⟨rfl, Nat.le_of_not_lt hcount⟩
  · obtain rfl := Option.some.inj hname
    rw [checkArity] at h
    split at h
    · rename_i hcount
      exact .inr (.inl ⟨rfl, hcount⟩)
    · cases h
  · obtain rfl := Option.some.inj hname
    rw [checkArity] at h
    split at h
    · rename_i hcount
      exact .inr (.inr (.inl ⟨rfl, hcount⟩))
    · cases h
  · cases hname

/-- An operator that was applied has as many operands as documented. -/
theorem Applied.documented {name : String} {guards : List Guard} {args : List Sexp}
    {sum : AdditiveOp → Compiling d Gathered} {t : Template} {u u' : Flags d}
    (h : Applied name guards args.length (compileAll d args) sum u u' t) (gathered : Bool) :
    (Application.mk name args.length gathered).Documented := by
  cases h with
  | additive hhead harity =>
    exact documented_of_checkArity (Head.ofName_additive.mp hhead) harity gathered
  | monadic hhead hargs =>
    have hstem := stem_of_monadicOfName (Head.ofName_monadic.mp hhead).2.2
    exact .inr (.inr (.inr (.inl ⟨hstem, (length_compileAll hargs).symm⟩)))
  | dyadic hhead hargs =>
    have hmem := mem_dyadicNames (Head.ofName_dyadic.mp hhead).2
    exact .inr (.inr (.inr (.inr ⟨hmem, (length_compileAll hargs).symm⟩)))

/-- The operands of an operator that was applied were gathered into a sum if it is additive, and
compiled one by one if not. -/
theorem Applied.operands {name : String} {guards : List Guard} {count : Nat}
    {args : Compiling d (List Template)} {sum : AdditiveOp → Compiling d Gathered} {t : Template}
    {u u' : Flags d} (h : Applied name guards count args sum u u' t) :
    (isAdditive name = true ∧ ∃ op g, sum op u = .ok (g, u')) ∨
      (isAdditive name = false ∧ ∃ ts, args u = .ok (ts, u')) := by
  cases h with
  | additive hhead _ hsum =>
    exact .inl ⟨isAdditive_of_ofName (Head.ofName_additive.mp hhead), _, _, hsum⟩
  | monadic hhead hargs =>
    exact .inr ⟨not_isAdditive_of_ofName (Head.ofName_monadic.mp hhead).1, _, hargs⟩
  | dyadic hhead hargs =>
    exact .inr ⟨not_isAdditive_of_ofName (Head.ofName_dyadic.mp hhead).1, _, hargs⟩

mutual

theorem documented_compile : (s : Sexp) → ∀ {u u' : Flags d} {t : Template},
    compile d s u = .ok (t, u') →
    ∀ a ∈ s.applicationsIn false, a.gathered = false → a.Documented
  | .atom _ _, _, _, _, _, a, ha => by
    rw [applicationsIn] at ha
    cases ha
  | .app head guards args, u, u', t, h, a, ha => by
    have happlied := compile_app h
    rw [applicationsIn] at ha
    rcases List.mem_cons.mp ha with rfl | ha
    · exact fun _ => happlied.documented _
    · rcases happlied.operands with ⟨hadditive, op, g, hg⟩ | ⟨hplain, ts, hts⟩
      · rw [hadditive] at ha
        exact documented_gatherAll args hg a ha
      · rw [hplain] at ha
        exact documented_compileAll args hts a ha

theorem documented_compileAll : (ss : List Sexp) → ∀ {u u' : Flags d} {ts : List Template},
    compileAll d ss u = .ok (ts, u') →
    ∀ a ∈ applicationsOfAll false ss, a.gathered = false → a.Documented
  | [], _, _, _, _, a, ha => by
    rw [applicationsOfAll] at ha
    cases ha
  | s :: ss, u, u', ts, h, a, ha => by
    obtain ⟨t, us, v, ht, hus, -⟩ := compileAll_cons h
    rw [applicationsOfAll] at ha
    rcases List.mem_append.mp ha with ha | ha
    · exact documented_compile s ht a ha
    · exact documented_compileAll ss hus a ha

theorem documented_gather : (s : Sexp) → ∀ {negated : Bool} {g g' : Gathered} {u u' : Flags d},
    gather d negated g s u = .ok (g', u') →
    ∀ a ∈ s.applicationsIn true, a.gathered = false → a.Documented
  | .atom _ _, _, _, _, _, _, _, a, ha => by
    rw [applicationsIn] at ha
    cases ha
  | .app head guards args, negated, g, g', u, u', h, a, ha => by
    rw [applicationsIn] at ha
    obtain ⟨op, hnested, hall⟩ | ⟨-, t, ht, -⟩ := gather_app h
    · obtain ⟨rfl, hname⟩ := nestedOp_eq_some.mp hnested
      rw [isAdditive_of_ofName hname] at ha
      rcases List.mem_cons.mp ha with rfl | ha
      · intro hgathered
        cases hgathered
      · exact documented_gatherAll args hall a ha
    · have happlied := compile_app ht
      rcases List.mem_cons.mp ha with rfl | ha
      · exact fun _ => happlied.documented _
      · rcases happlied.operands with ⟨hadditive, op, g, hg⟩ | ⟨hplain, ts, hts⟩
        · rw [hadditive] at ha
          exact documented_gatherAll args hg a ha
        · rw [hplain] at ha
          exact documented_compileAll args hts a ha

theorem documented_gatherAll : (ss : List Sexp) → ∀ {op : AdditiveOp} {negated : Bool}
    {position : Nat} {g g' : Gathered} {u u' : Flags d},
    gatherAll d op negated position g ss u = .ok (g', u') →
    ∀ a ∈ applicationsOfAll true ss, a.gathered = false → a.Documented
  | [], _, _, _, _, _, _, _, _, a, ha => by
    rw [applicationsOfAll] at ha
    cases ha
  | s :: ss, op, negated, position, g, g', u, u', h, a, ha => by
    obtain ⟨next, v, hs, hss⟩ := gatherAll_cons h
    rw [applicationsOfAll] at ha
    rcases List.mem_append.mp ha with ha | ha
    · exact documented_gather s hs a ha
    · exact documented_gatherAll ss hss a ha

end

/-- **In a template that compiles, every application has the documented number of operands, at any
depth, unless it is gathered into the sum around it.** -/
theorem documented_of_ofText {text : String} {s : Sexp} {t : Template}
    (hs : Sexp.ofText text = .ok s) (h : ofText d text = .ok t) :
    ∀ a ∈ s.applications, a.gathered = false → a.Documented := by
  obtain ⟨used, hcompile⟩ := compile_of_ofText hs h
  exact documented_compile s hcompile

/-- A text that compiles and passes a test, taken apart. -/
theorem exists_of_compiles (d : Definition) (text : String) (test : Sexp → Bool)
    (h : ((Sexp.ofText text).toOption.any test && (ofText d text).toOption.isSome) = true) :
    ∃ s t, Sexp.ofText text = .ok s ∧ ofText d text = .ok t ∧ test s = true := by
  obtain ⟨hany, hsome⟩ := Bool.and_eq_true_iff.mp h
  obtain ⟨s, hs, htest⟩ := Option.any_eq_true _ _ |>.mp hany
  obtain ⟨t, ht⟩ := Option.isSome_iff_exists.mp hsome
  exact ⟨s, t, eq_ok_of_toOption hs, eq_ok_of_toOption ht, htest⟩

/-- An accumulation has applications at three depths; the sum has guards, so it is not gathered. -/
theorem documented_of_ofText_accumulate :
    ∃ s t, Sexp.ofText "(shr:unsigned (add:nowrap rd (neg (mul:nowrap rs1 rs2))) is3)" = .ok s ∧
      ofText ⟨"macun", .standard, Bundled.macOperands, Bundled.shiftForm 0 6, none, none, none⟩
        "(shr:unsigned (add:nowrap rd (neg (mul:nowrap rs1 rs2))) is3)" = .ok t ∧
      s.applications = [⟨"shr", 2, false⟩, ⟨"add", 2, false⟩, ⟨"neg", 1, true⟩, ⟨"mul", 2, false⟩] ∧
      (Application.mk "mul" 2 false).Documented := by
  obtain ⟨s, t, hs, ht, htest⟩ := exists_of_compiles
    ⟨"macun", .standard, Bundled.macOperands, Bundled.shiftForm 0 6, none, none, none⟩
    "(shr:unsigned (add:nowrap rd (neg (mul:nowrap rs1 rs2))) is3)"
    (fun s => s.applications = [⟨"shr", 2, false⟩, ⟨"add", 2, false⟩, ⟨"neg", 1, true⟩,
      ⟨"mul", 2, false⟩]) (by decide +kernel)
  have happlications := of_decide_eq_true htest
  refine ⟨s, t, hs, ht, happlications, documented_of_ofText hs ht _ ?_ rfl⟩
  rw [happlications]
  simp

/-- A subtraction with one operand compiles in a sum, where it stands for that operand. -/
theorem gathered_number_unchecked :
    ∃ s t, Sexp.ofText "(add rs1 (sub rs2))" = .ok s ∧
      ofText ⟨"t", .standard, Bundled.registers 32 true, .registerForm 43 0 0, none, none, none⟩
        "(add rs1 (sub rs2))" = .ok t ∧
      ∃ a ∈ s.applications, ¬a.Documented := by
  obtain ⟨s, t, hs, ht, htest⟩ := exists_of_compiles
    ⟨"t", .standard, Bundled.registers 32 true, .registerForm 43 0 0, none, none, none⟩
    "(add rs1 (sub rs2))" (fun s => s.applications = [⟨"add", 2, false⟩, ⟨"sub", 1, true⟩])
    (by decide +kernel)
  have happlications := of_decide_eq_true htest
  refine ⟨s, t, hs, ht, ⟨"sub", 1, true⟩, ?_, by decide⟩
  rw [happlications]
  simp

end Template
end CustomIsa
