import CustomIsa.Proofs.Canon.KeySound
import CustomIsa.Proofs.Canon.Visible
import CustomIsa.Proofs.Expr.Numbered
/-! # What a canonical sum denotes

A canonical form denotes a number: variables and constants denote themselves, and any other node
what it computes, reduced into its type (`Canon.denote`). For an expression that is made by
addition, subtraction and negation this is its value (`ExprTree.denote_canon`), if two things hold
of it and of every nested sum that is a term of its own (`Expr.Keeps`). Terms that cancel must agree
in all their types, which keys do not tell. And if a sum collapses into its only term, the type of
the sum must hold that term, since nothing reduces it any more: otherwise the form denotes another
number (`ExprTree.denote_blind_to_conversion`).

The induction follows the chains. A sum is known once its operands are (`Canon.denotes_step`), and
the operands of a chain are variables, constants and sums of their own. -/
namespace CustomIsa
open Bits

namespace Canon

mutual

/-- The number that a canonical form denotes. -/
def denote (env : Env) : Canon → Int
  | .var _ name => env name
  | .const _ v => v
  | .monadic o .not a => o.ty.reduce (-a.denote env - 1)
  | .monadic o (.trunc _) a => o.ty.reduce (a.denote env)
  | .dyadic o op a b => o.ty.reduce (op.apply (a.denote env) (b.denote env))
  | .select o c a b => o.ty.reduce (if c.denote env ≠ 0 then a.denote env else b.denote env)
  | .sum o terms k _ => o.ty.reduce (denoteTerms env terms + k)

/-- The sum of what signed terms denote. -/
def denoteTerms (env : Env) : List (Bool × Canon) → Int
  | [] => 0
  | (negated, c) :: ts => Chain.signed negated (c.denote env) + denoteTerms env ts

end

mutual

/-- Whether two forms agree in everything but their widths and the source nodes they stand for. -/
def agrees : Canon → Canon → Bool
  | .var _ name, .var _ name' => name = name'
  | .const _ v, .const _ v' => v = v'
  | .monadic o op a, .monadic o' op' a' => o.ty = o'.ty && op = op' && a.agrees a'
  | .dyadic o op a b, .dyadic o' op' a' b' =>
    o.ty = o'.ty && op = op' && a.agrees a' && b.agrees b'
  | .select o c a b, .select o' c' a' b' =>
    o.ty = o'.ty && c.agrees c' && a.agrees a' && b.agrees b'
  | .sum o ts k _, .sum o' ts' k' _ => o.ty = o'.ty && k = k' && agreeTerms ts ts'
  | _, _ => false

/-- Whether signed terms agree one by one. -/
def agreeTerms : List (Bool × Canon) → List (Bool × Canon) → Bool
  | [], [] => true
  | (negated, c) :: ts, (negated', c') :: ts' =>
    negated = negated' && c.agrees c' && agreeTerms ts ts'
  | _, _ => false

end

variable {env : Env}

theorem denoteTerms_of_agrees {ts ts' : List (Bool × Canon)}
    (hterms : ∀ t ∈ ts, ∀ {c'}, t.2.agrees c' = true → t.2.denote env = c'.denote env)
    (h : agreeTerms ts ts' = true) : denoteTerms env ts = denoteTerms env ts' := by
  induction ts generalizing ts' with
  | nil =>
    cases ts' with
    | nil => rfl
    | cons => cases h
  | cons t ts ih =>
    cases ts' with
    | nil => cases h
    | cons t' ts' =>
      simp only [agreeTerms, Bool.and_eq_true, decide_eq_true_eq] at h
      obtain ⟨⟨hsign, hc⟩, hts⟩ := h
      obtain ⟨hfirst, hrest⟩ := List.forall_mem_cons.mp hterms
      rw [denoteTerms, denoteTerms, hsign, hfirst hc, ih hrest hts]

/-- **Forms that agree denote the same number.** -/
theorem denote_of_agrees {c c' : Canon} (h : c.agrees c' = true) :
    c.denote env = c'.denote env := by
  induction hsize : sizeOf c using Nat.strongRecOn generalizing c c' with
  | ind _ ih =>
    subst hsize
    have hbelow : ∀ a ∈ c.children, ∀ {a'}, a.agrees a' = true → a.denote env = a'.denote env :=
      fun a ha _ h => ih _ (sizeOf_lt_of_child ha) h rfl
    cases c with
    | var =>
      cases c' with
      | var =>
        rw [agrees, decide_eq_true_iff] at h
        rw [denote, denote, h]
      | const | monadic | dyadic | select | sum => cases h
    | const =>
      cases c' with
      | const =>
        rw [agrees, decide_eq_true_iff] at h
        rw [denote, denote, h]
      | var | monadic | dyadic | select | sum => cases h
    | monadic o op a =>
      cases c' with
      | monadic =>
        simp only [agrees, Bool.and_eq_true, decide_eq_true_eq] at h
        obtain ⟨⟨hty, rfl⟩, ha⟩ := h
        cases op <;> rw [denote, denote, hty, hbelow a (by simp [children]) ha]
      | var | const | dyadic | select | sum => cases h
    | dyadic o op a b =>
      cases c' with
      | dyadic =>
        simp only [agrees, Bool.and_eq_true, decide_eq_true_eq] at h
        obtain ⟨⟨⟨hty, rfl⟩, ha⟩, hb⟩ := h
        rw [denote, denote, hty, hbelow a (by simp [children]) ha, hbelow b (by simp [children]) hb]
      | var | const | monadic | select | sum => cases h
    | select o c a b =>
      cases c' with
      | select =>
        simp only [agrees, Bool.and_eq_true, decide_eq_true_eq] at h
        obtain ⟨⟨⟨hty, hc⟩, ha⟩, hb⟩ := h
        rw [denote, denote, hty, hbelow c (by simp [children]) hc, hbelow a (by simp [children]) ha,
          hbelow b (by simp [children]) hb]
      | var | const | monadic | dyadic | sum => cases h
    | sum o ts k adds =>
      cases c' with
      | sum =>
        simp only [agrees, Bool.and_eq_true, decide_eq_true_eq] at h
        obtain ⟨⟨hty, hk⟩, hts⟩ := h
        rw [denote, denote, hty, hk, denoteTerms_of_agrees (fun t ht => ?_) hts]
        exact hbelow t.2 (List.mem_map_of_mem ht)
      | var | const | monadic | dyadic | select => cases h

theorem denote_wrap (c : Canon) (outer : Expr Nat) (others : List Nat) :
    (c.wrap outer others).denote env = c.denote env := by
  cases c with
  | monadic _ op => cases op <;> simp only [wrap, withOrigin, denote, Origin.wrap, origin]
  | var | const | dyadic | select | sum =>
    simp only [wrap, withOrigin, denote, Origin.wrap, origin]

theorem denote_of_constant {c : Canon} {v : Int} (h : c.constant? = some v) :
    c.denote env = v := by
  cases c with
  | const =>
    rw [denote]
    exact Option.some.inj h
  | var | monadic | dyadic | select | sum => cases h

/-- Terms that denote the values of their expressions add up to these values. -/
theorem denoteTerms_eq {terms : List (Bool × Canon)}
    (h : ∀ t ∈ terms, t.2.denote env = t.2.sourceValue env) :
    denoteTerms env terms = Chain.termsValue env terms := by
  induction terms with
  | nil => rw [denoteTerms, Chain.termsValue]
  | cons t ts ih =>
    rw [denoteTerms, Chain.termsValue, h t List.mem_cons_self,
      ih fun u hu => h u (List.mem_cons_of_mem _ hu)]

end Canon

/-! ## Sums of their own -/

namespace Expr

/-- Whether the expression is made of variables and constants by addition, subtraction and
negation. -/
def isSum {α : Type} : Expr α → Bool
  | .var _ _ _ | .const _ _ _ => true
  | .unary _ .neg a => a.isSum
  | .binary _ .add a b | .binary _ .sub a b => a.isSum && b.isSum
  | _ => false

/-- The sums of their own in an expression that stands alone or is an operand of a chain of the
given type: additions that do not belong to the chain around them. -/
def sums (chain : Option IntType) : Expr Nat → List (Expr Nat)
  | e@(.unary _ _ a) =>
    if chain.any (Chain.merges · e) then a.sums chain else e :: a.sums (some e.ty)
  | e@(.binary _ _ a b) =>
    if chain.any (Chain.merges · e) then a.sums chain ++ b.sums chain
    else e :: (a.sums (some e.ty) ++ b.sums (some e.ty))
  | _ => []

/-- Nothing is lost when the chain of a sum becomes a canonical form: terms that cancel agree, and
the type of the sum holds what is left. -/
def Keeps (e : Expr Nat) : Prop :=
  (∀ t ∈ (Chain.ofSum e).terms, ∀ u ∈ (Chain.ofSum e).terms, t.1 ≠ u.1 → t.2.key = u.2.key →
    t.2.agrees u.2 = true) ∧
  e.ty.holds (Canon.ofExpr e).info.width (Canon.ofExpr e).info.signed = true

instance (e : Expr Nat) : Decidable e.Keeps := inferInstanceAs (Decidable (_ ∧ _))

/-- Every sum of its own keeps its value. -/
def Steady (e : Expr Nat) : Prop := ∀ s ∈ e.sums none, s.Keeps

instance (e : Expr Nat) : Decidable e.Steady := inferInstanceAs (Decidable (∀ s ∈ e.sums none, _))

theorem isAdditive_of_isSum {e : Expr Nat} (hsum : e.isSum = true) (hne : e.children ≠ []) :
    e.isAdditive = true := by
  cases e with
  | var | const => exact absurd rfl hne
  | cast | select => cases hsum
  | unary tag op a => cases op <;> first | rfl | cases hsum
  | binary tag op a b => cases op <;> first | rfl | cases hsum

theorem isSum_of_child {e a : Expr Nat} (hsum : e.isSum = true) (ha : a ∈ e.children) :
    a.isSum = true := by
  cases e with
  | var | const => cases ha
  | cast | select => cases hsum
  | unary tag op b =>
    obtain rfl := List.mem_singleton.mp ha
    cases op with
    | not => cases hsum
    | neg => exact hsum
  | binary tag op b c =>
    have hboth : b.isSum = true ∧ c.isSum = true := by
      cases op with
      | add | sub => exact Bool.and_eq_true_iff.mp hsum
      | mul | and | or | xor | shl | shr | lt | le | gt | ge | eq | ne => cases hsum
    simp only [children, List.mem_cons, List.not_mem_nil, or_false] at ha
    rcases ha with rfl | rfl
    · exact hboth.1
    · exact hboth.2

theorem sums_none {e : Expr Nat} (hadd : e.isAdditive = true) :
    e.sums none = e :: e.sums (some e.ty) := by
  have hmerge := Chain.merges_self e
  cases e with
  | var | const | cast | select => cases hadd
  | unary | binary => simp [sums, hmerge]

/-- An operand of a chain has the sums that it has alone. -/
theorem sums_of_not_merges {e : Expr Nat} {root : IntType} (hsum : e.isSum = true)
    (h : ¬(e.isAdditive = true ∧ Chain.merges root e = true)) :
    e.sums (some root) = e.sums none := by
  cases e with
  | var | const | cast | select => rfl
  | unary | binary =>
    have hadd := isAdditive_of_isSum hsum (by simp [children])
    simp only [hadd, true_and, Bool.not_eq_true] at h
    simp [sums, h]

end Expr

namespace Chain.Operand
variable {root : IntType} {e s : Expr Nat}

theorem isSum (h : Operand root e s) (hsum : e.isSum = true) : s.isSum = true := by
  induction h with
  | self => exact hsum
  | cast => cases hsum
  | neg _ _ ih | first _ _ ih | second _ _ ih =>
    exact ih (Expr.isSum_of_child hsum (by simp [Expr.children]))

/-- The sums in an operand are sums in the expression. -/
theorem sums_subset (h : Operand root e s) (hsum : e.isSum = true) :
    s.sums none ⊆ e.sums (some root) := by
  induction h with
  | self h => rw [Expr.sums_of_not_merges hsum h]; exact List.Subset.refl _
  | cast => cases hsum
  | neg hmerge _ ih =>
    have hrest := ih (Expr.isSum_of_child hsum (by simp [Expr.children]))
    simpa [Expr.sums, hmerge] using hrest
  | first hmerge _ ih =>
    have hrest := ih (Expr.isSum_of_child hsum (by simp [Expr.children]))
    simpa [Expr.sums, hmerge] using List.subset_append_of_subset_left _ hrest
  | second hmerge _ ih =>
    have hrest := ih (Expr.isSum_of_child hsum (by simp [Expr.children]))
    simpa [Expr.sums, hmerge] using List.subset_append_of_subset_right _ hrest

end Chain.Operand

/-! ## The value of a sum -/

namespace Canon

/-- The canonical form denotes the value of the expression, within its width. -/
structure Denotes (env : Env) (e : Expr Nat) : Prop where
  value : (ofExpr e).denote env = e.value env
  pos : 1 ≤ (ofExpr e).info.width
  range : Within (ofExpr e).info.width (ofExpr e).info.signed (e.value env)

variable {env : Env} {e : Expr Nat}

section Step
variable (hproper : e.Proper) (hadm : e.Admits env) (hkeeps : e.Keeps)
  (hoperands : ∀ {s}, Chain.Operand e.ty e s → Denotes env s)

include hoperands in
theorem constantsHold_of_denotes : Chain.ConstantsHold env e.ty e := by
  intro s hs v hv
  rw [← (hoperands (.of_mem_leaves hs)).value]
  exact denote_of_constant hv

include hkeeps hoperands in
theorem keysHold_of_denotes : Chain.KeysHold env e := by
  intro t ht u hu hsign hkey
  have hagrees := hkeeps.1 t ht u hu hsign hkey
  obtain ⟨-, s, hs, -, heq⟩ := Chain.operand_ofSum ht
  obtain ⟨-, s', hs', -, heq'⟩ := Chain.operand_ofSum hu
  rw [heq, heq'] at hagrees ⊢
  rw [sourceValue_ofExpr, sourceValue_ofExpr, ← (hoperands hs).value, ← (hoperands hs').value]
  exact denote_of_agrees hagrees

include hproper hadm hkeeps hoperands in
/-- **A sum that keeps its value denotes it**, if its operands do. -/
theorem denotes_step (hadd : e.isAdditive = true) : Denotes env e := by
  have hreduce := Chain.reduce_sumValue hproper hadm (constantsHold_of_denotes hoperands) hadd
    (keysHold_of_denotes hkeeps hoperands)
  have hbounds := (Expr.info_sound hproper hadm).1
  have hterms : ∀ t ∈ (Chain.ofSum e).left, ∃ s, Denotes env s ∧ t.2 = ofExpr s := by
    intro t ht
    obtain ⟨-, s, hs, -, heq⟩ := Chain.operand_ofSum (Chain.mem_left ht)
    exact ⟨s, hoperands hs, heq⟩
  have hheld := hkeeps.2
  have hremains := Chain.remains_ofSum hadd
  generalize hc : ofExpr e = c at hremains
  cases hremains with
  | const absorbed hnone =>
    refine ⟨?_, ?_, ?_⟩ <;> rw [hc]
    · rw [denote, ← hreduce, Chain.sumValue, hnone, Chain.termsValue, Int.zero_add]
    · exact hbounds.pos
    · exact hbounds.range
  | term c others honly hzero =>
    obtain ⟨s, hs, rfl⟩ := hterms (false, c) (honly ▸ List.mem_cons_self)
    -- nothing reduces the value of the only term any more
    have hsame : e.value env = s.value env := by
      rw [hc, info_wrap] at hheld
      rw [← hreduce, Chain.sumValue, honly, hzero]
      simp only [Chain.termsValue, Chain.signed, sourceValue_ofExpr, Int.add_zero, if_false,
        Bool.false_eq_true]
      exact IntType.reduce_eq_self hproper.ty (IntType.has_of_holds hheld hs.range)
    refine ⟨?_, ?_, ?_⟩ <;> rw [hc]
    · rw [denote_wrap, hs.value, hsame]
    · rw [info_wrap]
      exact hs.pos
    · rw [info_wrap, hsame]
      exact hs.range
  | sum o adds hne hmore hty hsource hinfo =>
    have hbounds := Chain.bounds_of_remains hproper hadm hreduce (fun t ht => by
      obtain ⟨s, hs, heq⟩ := hterms t ht
      rw [heq, sourceValue_ofExpr]
      exact Width.tracks_of_within hs.pos hs.range) hne hmore hinfo
    refine ⟨?_, ?_, ?_⟩ <;> rw [hc]
    · rw [denote, hty, ← hreduce, Chain.sumValue, denoteTerms_eq]
      intro t ht
      obtain ⟨s, hs, heq⟩ := hterms t ht
      rw [heq, sourceValue_ofExpr]
      exact hs.value
    · exact hbounds.pos
    · exact hbounds.range

end Step

/-- **A steady sum denotes its value.** -/
theorem denotes_of_steady (hproper : e.Proper) (hadm : e.Admits env) (hsum : e.isSum = true)
    (hsteady : e.Steady) : Denotes env e := by
  induction hsize : e.size using Nat.strongRecOn generalizing e with
  | ind _ ih =>
    subst hsize
    by_cases hadd : e.isAdditive = true
    · rw [Expr.Steady, Expr.sums_none hadd] at hsteady
      obtain ⟨hkeeps, hbelow⟩ := List.forall_mem_cons.mp hsteady
      refine denotes_step hproper hadm hkeeps (fun {s} hs => ?_) hadd
      have hunder := hs.under hadd (Chain.merges_self e)
      exact ih s.size hunder.size (hproper.of_mem_preorder hunder.mem)
        (hadm.of_mem_preorder hunder.mem) (hs.isSum hsum)
        (fun u hu => hbelow u (hs.sums_subset hsum hu)) rfl
    · have hbounds := (Expr.info_sound hproper hadm).1
      cases e with
      | var | const =>
        refine ⟨?_, ?_, ?_⟩ <;> rw [ofExpr]
        · rw [denote, Expr.value]
        · exact hbounds.pos
        · exact hbounds.range
      | cast | select => cases hsum
      | unary | binary =>
        exact absurd (Expr.isAdditive_of_isSum hsum (by simp [Expr.children])) hadd

end Canon

namespace ExprTree
open Canon

/-- **A sum without casts keeps its value.** Let an expression read from text be made of variables
and constants by addition, subtraction and negation. If in it and in every nested sum that is a term
of its own, terms that cancel agree in their types, and the type of the sum holds what is left, then
its canonical form denotes its value, for all values of the variables within their types. -/
theorem denote_canon {env : Env} {vars : Typing} {text : String} {t : ExprTree}
    (htext : ofText vars text = .ok t)
    (htyped : ∀ name ty, vars.get? name = some ty → ty.Proper ∧ ty.Has (env name))
    (hsum : t.root.isSum = true) (hsteady : t.root.Steady) :
    (Canon.ofExpr t.root).denote env = t.root.value env := by
  have horigin : t.Origin env := .read vars text htyped htext
  have hroot : t.root ∈ t.nodes := (Assembled.read vars text htext).indexed.root_mem
  exact (denotes_of_steady (horigin.proper _ hroot) (horigin.admits _ hroot) hsum hsteady).value

/-- Two sums that wrap around in 32 bits cancel in a sum of 64 bits, which wraps around itself. -/
theorem denote_canon_wrapping :
    ∃ t, ofText (.ofList [("i", .i8), ("w", .u64), ("x", .u32), ("y", .u32)])
        "w + (x + y + 5u) - (y + 5 + x) - -i" = .ok t ∧
      t.root.isSum = true ∧ t.root.Steady ∧
      (Canon.ofExpr t.root).key = "(sum +v:i +v:w ~0)" ∧
      (Canon.ofExpr t.root).denote (fun name => if name = "w" then 2 ^ 64 - 1 else 100) = 99 ∧
      t.root.value (fun name => if name = "w" then 2 ^ 64 - 1 else 100) = 99 := by
  have hrun : (ofText (.ofList [("i", .i8), ("w", .u64), ("x", .u32), ("y", .u32)])
      "w + (x + y + 5u) - (y + 5 + x) - -i").toOption.any (fun t =>
        t.root.isSum && t.root.Steady &&
          (Canon.ofExpr t.root).key = "(sum +v:i +v:w ~0)" &&
          t.root.value (fun name => if name = "w" then 2 ^ 64 - 1 else 100) = 99) = true := by
    decide +kernel
  obtain ⟨t, htext, hcase⟩ := Option.any_eq_true _ _ |>.mp hrun
  simp only [Bool.and_eq_true, decide_eq_true_eq] at hcase
  obtain ⟨⟨⟨hsum, hsteady⟩, hkey⟩, hvalue⟩ := hcase
  have htext := eq_ok_of_toOption htext
  refine ⟨t, htext, hsum, hsteady, hkey, ?_, hvalue⟩
  rw [← hvalue]
  refine denote_canon htext (fun name ty hty => ?_) hsum hsteady
  simp only [NameMap.ofList, List.foldl_cons, List.foldl_nil, NameMap.get?_insert,
    NameMap.get?_empty] at hty
  split_ifs at hty with hy hx hw hi
  all_goals
    obtain rfl := Option.some.inj hty
    subst name
    decide

/-- **A sum that collapses forgets the conversion of its only term.** The sum `x + u - u` of 32 bits
without sign is taken for the signed `x`. In a sum of 64 bits it then cancels against `x`, and the
difference, which is taken for the constant zero, is another number if `x` is negative. -/
theorem denote_blind_to_conversion :
    ∃ t p, ofText (.ofList [("u", .u32), ("w", .u64), ("x", .i32)]) "(x + u - u) + w - x - w" =
        .ok t ∧ t.root.isSum = true ∧ p ∈ t.nodes ∧ ¬p.Keeps ∧
      (Canon.ofExpr p).denote (fun name => if name = "x" then -1 else 0) = -1 ∧
      p.value (fun name => if name = "x" then -1 else 0) = 2 ^ 32 - 1 ∧
      (Canon.ofExpr t.root).constant? = some 0 ∧
      (Canon.ofExpr t.root).denote (fun name => if name = "x" then -1 else 0) = 0 ∧
      t.root.value (fun name => if name = "x" then -1 else 0) = 2 ^ 32 := by
  have hrun : (ofText (.ofList [("u", .u32), ("w", .u64), ("x", .i32)])
      "(x + u - u) + w - x - w").toOption.any (fun t => t.root.isSum && t.nodes.any fun p =>
        !decide p.Keeps &&
          (Canon.ofExpr p).denote (fun name => if name = "x" then -1 else 0) = -1 &&
          p.value (fun name => if name = "x" then -1 else 0) = 2 ^ 32 - 1 &&
          (Canon.ofExpr t.root).constant? = some 0 &&
          (Canon.ofExpr t.root).denote (fun name => if name = "x" then -1 else 0) = 0 &&
          t.root.value (fun name => if name = "x" then -1 else 0) = 2 ^ 32) = true := by
    decide +kernel
  obtain ⟨t, htext, hcase⟩ := Option.any_eq_true _ _ |>.mp hrun
  obtain ⟨hsum, hany⟩ := Bool.and_eq_true_iff.mp hcase
  obtain ⟨p, hp, hcase⟩ := List.any_eq_true.mp hany
  simp only [Bool.and_eq_true, Bool.not_eq_true', decide_eq_true_eq, decide_eq_false_iff_not]
    at hcase
  obtain ⟨⟨⟨⟨⟨hkeeps, hdenote⟩, hvalue⟩, hconst⟩, hroot⟩, hrootValue⟩ := hcase
  exact ⟨t, p, eq_ok_of_toOption htext, hsum, hp, hkeeps, hdenote, hvalue, hconst, hroot,
    hrootValue⟩

end ExprTree
end CustomIsa
