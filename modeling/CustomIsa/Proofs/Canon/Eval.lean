import CustomIsa.Proofs.Canon.KeySound
/-! # The value of a canonical form

A canonical form has a value of its own, computed on the integers without regard to types
(`Canon.eval`). Where nothing overflows and complements are taken in signed types only, it is the
value of the expression (`ExprTree.eval_canon`).

Reducing into a type then changes no value, so every node computes the value of its expression from
the values of those right below it (`Canon.Exact`), and keys, which do not tell the type, stand for
values. As for faithful forms, each of the two facts rests on the other one for smaller
expressions. -/
namespace CustomIsa
open Bits

namespace Expr
variable {α : Type} {env : Env}

/-- Whether the topmost node, if it is a complement, is one of a signed operand. -/
def complementsSigned : Expr α → Bool
  | .unary _ .not a => a.ty.signed
  | _ => true

/-- Where a node does not overflow, nothing is lost by reducing its value. -/
theorem value_eq_exactValue {e : Expr α} (hproper : e.Proper) (hadm : e.Admits env)
    (hover : e.info.overflow = false) (hsigned : e.complementsSigned = true) :
    e.value env = e.exactValue env := by
  by_cases hcompl : e.isComplement = true
  · -- the width of a complement tells nothing, but its type has room for it
    cases e with
    | unary tag op a =>
      cases op with
      | neg => cases hcompl
      | not =>
        refine value_complement (a := a) hproper hadm ?_
        rw [IntType.promoted]
        split <;> exact hsigned
    | var | const | binary | cast | select => cases hcompl
  · exact (info_sound hproper hadm).2 hover (by simpa using hcompl)

end Expr

namespace Canon

mutual

/-- The value of a canonical form on the integers. -/
def eval (env : Env) : Canon → Int
  | .var _ name => env name
  | .const _ v => v
  | .monadic _ .not a => -a.eval env - 1
  | .monadic _ (.trunc bits) a => a.eval env % 2 ^ bits
  | .dyadic _ op a b => op.apply (a.eval env) (b.eval env)
  | .select _ c a b => if c.eval env ≠ 0 then a.eval env else b.eval env
  | .sum _ terms k _ => evalTerms env terms + k

/-- The sum of signed terms. -/
def evalTerms (env : Env) : List (Bool × Canon) → Int
  | [] => 0
  | (negated, c) :: ts => (if negated then -c.eval env else c.eval env) + evalTerms env ts

end

variable {env : Env} {S : Expr Nat → Prop} {m : Expr Nat}

/-- The topmost node computes the value of the form, if the nodes right below it have the values of
their expressions. -/
theorem eval_eq_topValue {c : Canon} (hwhole : c.isTruncation = false)
    (hbelow : ∀ a ∈ c.children, a.eval env = a.sourceValue env) :
    c.eval env = c.topValue env := by
  cases c with
  | var | const => simp only [eval, topValue]
  | monadic o op a =>
    cases op with
    | not => simp only [eval, topValue, hbelow a (by simp [children])]
    | trunc bits => cases hwhole
  | dyadic o op a b =>
    simp only [eval, topValue, hbelow a (by simp [children]), hbelow b (by simp [children])]
  | select o c a b =>
    simp only [eval, topValue, hbelow c (by simp [children]), hbelow a (by simp [children]),
      hbelow b (by simp [children])]
  | sum o terms k adds =>
    rw [eval, topValue]
    congr 1
    clear hwhole
    simp only [children] at hbelow
    induction terms with
    | nil => simp only [evalTerms, Chain.termsValue]
    | cons t ts ih =>
      rw [evalTerms, Chain.termsValue, Chain.signed, hbelow t.2 (by simp),
        ih fun a ha => hbelow a (List.mem_cons_of_mem _ ha)]

/-- The topmost node computes the value of the expression, within its width. -/
structure Exact (env : Env) (e : Expr Nat) : Prop where
  whole : (ofExpr e).isTruncation = false
  value : e.value env = (ofExpr e).topValue env
  pos : 1 ≤ (ofExpr e).info.width
  range : Within (ofExpr e).info.width (ofExpr e).info.signed (e.value env)

/-- Well-formed expressions, with all expressions below them, none of which overflows. -/
structure Tame (env : Env) (S : Expr Nat → Prop) : Prop where
  below : ∀ {e s}, S e → s ∈ e.preorder → S s
  proper : ∀ {e}, S e → e.Proper
  admits : ∀ {e}, S e → e.Admits env
  plain : ∀ {e}, S e → e.Obeys plainNames
  fits : ∀ {e}, S e → e.info.overflow = false
  signed : ∀ {e}, S e → e.complementsSigned = true

/-- Where all nodes are exact, equal keys stand for equal values. -/
theorem Tame.value_of_key {size : Nat} (hS : Tame env S)
    (hexact : ∀ {e}, S e → e.size < size → Exact env e) {n : Expr Nat} (hm : S m) (hn : S n)
    (hms : m.size < size) (hns : n.size < size) (hkey : (ofExpr m).key = (ofExpr n).key) :
    m.value env = n.value env := by
  induction hsize : m.size using Nat.strongRecOn generalizing m n with
  | ind _ ih =>
    subst hsize
    rw [(hexact hm hms).value, (hexact hn hns).value]
    refine topValue_of_alike (alike_of_key (clear_ofExpr (hS.plain hm)) (clear_ofExpr (hS.plain hn))
      hkey) fun a ha a' ha' hkeys => ?_
    obtain ⟨s, hs, rfl⟩ := child_ofExpr ha
    obtain ⟨s', hs', rfl⟩ := child_ofExpr ha'
    rw [sourceValue_ofExpr, sourceValue_ofExpr]
    exact ih _ hs.size (hS.below hm hs.mem) (hS.below hn hs'.mem) (Nat.lt_trans hs.size hms)
      (Nat.lt_trans hs'.size hns) hkeys rfl

/-- What is known of the expressions below, if these are exact. -/
theorem Tame.below_of_exact (hS : Tame env S) (hm : S m)
    (hexact : ∀ {e}, S e → e.size < m.size → Exact env e) : Below env m := by
  have hunder : ∀ {s : Expr Nat}, s.Under m → Exact env s :=
    fun hs => hexact (hS.below hm hs.mem) hs.size
  refine ⟨fun {s v} hs hv => ?_, fun hs => (hunder hs).pos, fun hs => (hunder hs).range,
    fun hs hu hkey => ?_, fun hs _ _ => by rw [(hunder hs).value]⟩
  · rw [(hunder hs).value]
    generalize ofExpr s = c at hv
    cases c with
    | const => exact Option.some.inj hv
    | var | monadic | dyadic | select | sum => cases hv
  · exact hS.value_of_key hexact (hS.below hm hs.mem) (hS.below hm hu.mem) hs.size hu.size hkey

/-- An expression is exact if those below it are. -/
theorem Tame.exact_step (hS : Tame env S) (hm : S m)
    (hexact : ∀ {e}, S e → e.size < m.size → Exact env e) : Exact env m := by
  have hproper := hS.proper hm
  have hadm := hS.admits hm
  have hvalue := Expr.value_eq_exactValue hproper hadm (hS.fits hm) (hS.signed hm)
  have hbounds := (Expr.info_sound hproper hadm).1
  cases computes_of_below hproper hadm (hS.below_of_exact hm hexact) with
  | const absorbed v hform hv =>
    refine ⟨?_, ?_, ?_, ?_⟩ <;> rw [hform]
    · rfl
    · exact hv
    · exact hbounds.pos
    · exact hbounds.range
  | truncation _ _ _ _ hover =>
    rw [hS.fits hm] at hover
    cases hover
  | own absorbed horigin hwhole htop _ =>
    have hinfo : (ofExpr m).info = m.info := by rw [info, horigin]; rfl
    exact ⟨hwhole, hvalue.trans htop.symm, hinfo ▸ hbounds.pos, hinfo ▸ hbounds.range⟩
  | collapsed s others hs hform _ _ hsame =>
    have hinner := hexact (hS.below hm hs.mem) hs.size
    have hsame := hsame (hS.fits hm)
    refine ⟨?_, ?_, ?_, ?_⟩ <;> rw [hform]
    · rw [isTruncation_wrap]
      exact hinner.whole
    · rw [topValue_wrap, hsame]
      exact hinner.value
    · rw [info_wrap]
      exact hinner.pos
    · rw [info_wrap, hsame]
      exact hinner.range
  | sum o terms k adds hform _ hbounds _ hsum =>
    refine ⟨?_, ?_, ?_, ?_⟩ <;> rw [hform]
    · rfl
    · exact hsum (.inr (hS.fits hm))
    · exact hbounds.pos
    · exact hbounds.range

theorem Tame.exact (hS : Tame env S) (hm : S m) : Exact env m := by
  induction hsize : m.size using Nat.strongRecOn generalizing m with
  | ind _ ih =>
    subst hsize
    exact hS.exact_step hm fun he hlt => ih _ hlt he rfl

/-- **Where nothing overflows, the value of the canonical form is that of the expression.** -/
theorem Tame.eval_ofExpr (hS : Tame env S) (hm : S m) : (ofExpr m).eval env = m.value env := by
  induction hsize : m.size using Nat.strongRecOn generalizing m with
  | ind _ ih =>
    subst hsize
    have hexact := hS.exact hm
    rw [hexact.value]
    refine eval_eq_topValue hexact.whole fun a ha => ?_
    obtain ⟨s, hs, rfl⟩ := child_ofExpr ha
    rw [sourceValue_ofExpr]
    exact ih _ hs.size (hS.below hm hs.mem) rfl

end Canon

namespace ExprTree
open Canon

/-- **Canonical forms preserve meaning where nothing overflows.** Let no node at or below a node of
an expression read from text overflow, and complements be taken of signed operands only. Then the
canonical form, evaluated on the integers, has the value of the node, for all values of the
variables within their types. -/
theorem eval_canon {env : Env} {vars : Typing} {text : String} {t : ExprTree}
    (htext : ofText vars text = .ok t)
    (htyped : ∀ name ty, vars.get? name = some ty → ty.Proper ∧ ty.Has (env name))
    {p : Expr Nat} (hp : p ∈ t.nodes) (hfits : ∀ s ∈ p.preorder, s.info.overflow = false)
    (hsigned : ∀ s ∈ p.preorder, s.complementsSigned = true) :
    (Canon.ofExpr p).eval env = p.value env := by
  have horigin : t.Origin env := .read vars text htyped htext
  have hobeys : ∀ {rule : Expr.LeafRule}, (∀ n ∈ t.nodes, n.Obeys rule) →
      ∀ {e}, e ∈ p.preorder → e.Obeys rule :=
    fun hrule _ he => (hrule p hp).of_mem_preorder he
  have htame : Tame env (· ∈ p.preorder) :=
    ⟨fun he hs => Expr.mem_preorder_trans he hs, hobeys horigin.proper, hobeys horigin.admits,
      hobeys (plainNames_ofText htext), hfits _, hsigned _⟩
  exact htame.eval_ofExpr p.mem_preorder_self

/-- A choice that becomes a maximum, casts and a mask that go away, and terms that cancel. -/
theorem eval_canon_maximum :
    ∃ t, ofText (.ofList [("a", .i16), ("b", .i16), ("c", .u8)])
        "(a > b ? a : b) + (int)(c & 255) * 2 - ((int64_t)b + ~a - b)" = .ok t ∧
      (∀ s ∈ t.root.preorder, s.info.overflow = false) ∧
      (∀ s ∈ t.root.preorder, s.complementsSigned = true) ∧
      (Canon.ofExpr t.root).key = "(sum +(Max v:a v:b) +(Mul v:c ~2) -(Not v:a) ~0)" ∧
      (Canon.ofExpr t.root).eval (fun _ => 100) = t.root.value fun _ => 100 := by
  have hrun : (ofText (.ofList [("a", .i16), ("b", .i16), ("c", .u8)])
      "(a > b ? a : b) + (int)(c & 255) * 2 - ((int64_t)b + ~a - b)").toOption.any (fun t =>
        t.nodes.contains t.root && t.root.preorder.all (·.info.overflow = false) &&
          t.root.preorder.all (·.complementsSigned) &&
          (Canon.ofExpr t.root).key = "(sum +(Max v:a v:b) +(Mul v:c ~2) -(Not v:a) ~0)") =
        true := by
    decide +kernel
  obtain ⟨t, htext, hcase⟩ := Option.any_eq_true _ _ |>.mp hrun
  simp only [Bool.and_eq_true, List.contains_iff_mem, List.all_eq_true, decide_eq_true_eq] at hcase
  obtain ⟨⟨⟨hroot, hfits⟩, hsigned⟩, hkey⟩ := hcase
  have htext := eq_ok_of_toOption htext
  refine ⟨t, htext, hfits, hsigned, hkey, ?_⟩
  refine eval_canon htext (fun name ty hty => ?_) hroot hfits hsigned
  have htypes : ty = .i16 ∨ ty = .u8 := by
    simp only [NameMap.ofList, List.foldl_cons, List.foldl_nil, NameMap.get?_insert,
      NameMap.get?_empty] at hty
    split_ifs at hty <;> simp_all
  rcases htypes with rfl | rfl <;> decide

end ExprTree
end CustomIsa
