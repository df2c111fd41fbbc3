import CustomIsa.Proofs.Canon.Native
/-! # The additions that a sum is gathered from

A sum in a canonical form is gathered from one addition, subtraction or negation of the source
(`Canon.gathered_ofExpr`). Its chain goes through negations and casts that lose nothing
(`Chain.Passes`) and through the additions and subtractions that belong to it (`Chain.Adds`), and
lists those of them that add a constant.

What counts as a constant there is decided at the operand that the chain arrives at: it is no
addition of the chain, and it folds to a constant. The operand itself then folds to a constant, and
only then (`Chain.folded_iff`). Negations are the hard part, since a negation is gathered in its own
type when it stands alone: no more additions belong to the chain of that type
(`Chain.Adds.of_narrow`). -/
namespace CustomIsa

/-- The expression folds to a constant. -/
def Expr.Folds (e : Expr Nat) : Prop := (Canon.ofExpr e).constant?.isSome = true

/-! ## Where a sum comes from -/

/-- The parts of a sum that is gathered from the given source node: its origin, terms and constant,
and the numbers of the nodes that add a constant. -/
structure Canon.Gathered (s : Expr Nat) (o : Origin) (terms : List (Bool × Canon)) (k : Int)
    (adds : List Nat) : Prop where
  additive : s.isAdditive = true
  terms_eq : terms = (Chain.ofSum s).left
  constant_eq : k = (Chain.ofSum s).constantIn s
  adds_eq : adds = (Chain.ofSum s).constAdds
  nonempty : terms ≠ []
  info_eq : o.info = if terms.length = (Chain.ofSum s).terms.length then s.info
    else Chain.sumInfo s.ty terms k

namespace Chain

/-- A chain that becomes a sum of its own gives it its terms, constant and additions. -/
theorem gathered_toCanon {e : Expr Nat} {ch : Chain} {o : Origin} {terms : List (Bool × Canon)}
    {k : Int} {adds : List Nat} (h : ch.toCanon e = .sum o terms k adds)
    (hmore : ∀ c, ch.left = [(false, c)] → ch.constantIn e ≠ 0) :
    terms = ch.left ∧ k = ch.constantIn e ∧ adds = ch.constAdds ∧ terms ≠ [] ∧
      o.info = if terms.length = ch.terms.length then e.info else sumInfo e.ty terms k := by
  rw [toCanon] at h
  rw [left, constantIn] at hmore ⊢
  generalize cancel [] (Sorting.sort termLe ch.terms) = result at h hmore ⊢
  obtain ⟨kept, gone⟩ := result
  generalize (if e.info.overflow = true then e.ty.reduce ch.constant else ch.constant) = v
    at h hmore ⊢
  cases kept with
  | nil => cases h
  | cons t more =>
    obtain ⟨negated, c⟩ := t
    simp only at h
    split at h
    · rename_i hsingle
      obtain ⟨hneg, hnil, hzero⟩ := hsingle
      obtain rfl : negated = false := by simpa using hneg
      obtain rfl : more = [] := by simpa using hnil
      exact absurd hzero (hmore c rfl)
    · obtain ⟨rfl, rfl, rfl, rfl⟩ := Canon.sum.inj h
      refine ⟨rfl, rfl, rfl, List.cons_ne_nil _ _, ?_⟩
      split <;> rfl

end Chain

namespace Canon
open Chain (ofSum)

theorem sum_of_wrap {c : Canon} {e : Expr Nat} {others : List Nat} {o : Origin}
    {terms : List (Bool × Canon)} {k : Int} {adds : List Nat}
    (h : c.wrap e others = .sum o terms k adds) :
    ∃ o', c = .sum o' terms k adds ∧ o'.info = o.info := by
  cases c with
  | sum o' terms' k' adds' =>
    obtain ⟨rfl, rfl, rfl, rfl⟩ := Canon.sum.inj h
    exact ⟨o', rfl, rfl⟩
  | var | const | monadic | dyadic | select => cases h

/-- **Every sum in a canonical form is gathered from an addition, subtraction or negation of the
source.** Around it there may be casts, masks and further additions of which nothing is left. -/
theorem gathered_ofExpr {e : Expr Nat} {o : Origin} {terms : List (Bool × Canon)} {k : Int}
    {adds : List Nat} (h : ofExpr e = .sum o terms k adds) :
    ∃ s ∈ e.preorder, Gathered s o terms k adds := by
  induction hn : e.size using Nat.strongRecOn generalizing e o with
  | ind n ih =>
    subst hn
    -- what collapsed into a sum below has the parts of that sum
    have hbelow : ∀ {a : Expr Nat} {others : List Nat}, a.Under e →
        (ofExpr a).wrap e others = .sum o terms k adds →
        ∃ s ∈ e.preorder, Gathered s o terms k adds := by
      intro a others ha hwrap
      obtain ⟨o', hsum, hinfo⟩ := sum_of_wrap hwrap
      obtain ⟨s, hs, hgathered⟩ := ih _ ha.size hsum rfl
      exact ⟨s, Expr.mem_preorder_trans ha.mem hs, { hgathered with
        info_eq := hinfo.symm.trans hgathered.info_eq }⟩
    have hchild : ∀ a ∈ e.children, a.Under e :=
      fun a ha => Expr.under_of_child ha a.mem_preorder_self
    have hmade := made_ofExpr e
    rw [h] at hmade
    generalize hc : Canon.sum o terms k adds = c at hmade
    cases hmade with
    | var | const | castConst | trunc | notConst | not | folded | dyadic | swapped | extremum
    | select => cases hc
    | castKept tag ty a => exact hbelow (hchild a (by simp [Expr.children])) hc.symm
    | masked tag a b => exact hbelow (hchild a (by simp [Expr.children])) hc.symm
    | maskedBy tag a b => exact hbelow (hchild b (by simp [Expr.children])) hc.symm
    | sum e c hadd hremains =>
      cases hremains with
      | const => cases hc
      | term c others hterms =>
        obtain ⟨-, s, hs, rfl⟩ := Chain.only_left hterms
        exact hbelow hs hc.symm
      | sum o' adds' hne hmore =>
        have hform := (ofExpr_of_isAdditive hadd).symm.trans h
        rw [← Chain.ofSum_eq hadd] at hform
        obtain ⟨hterms, hk, hadds, hne, hinfo⟩ := Chain.gathered_toCanon hform hmore
        exact ⟨e, e.mem_preorder_self, hadd, hterms, hk, hadds, hne, hinfo⟩

end Canon

/-! ## What a chain goes through -/

namespace Chain
variable {root ty : IntType} {e a n : Expr Nat} {negated : Bool}

/-- The chain goes through the expression to its operand: a cast of an addition that loses nothing,
or a negation that belongs to the chain. -/
inductive Passes (root : IntType) : Expr Nat → Expr Nat → Prop where
  | cast {tag : Nat} {ty : IntType} {a : Expr Nat}
    (hover : (Expr.cast tag ty a).info.overflow = false) (hadd : a.isAdditive = true) :
    Passes root (.cast tag ty a) a
  | neg {tag : Nat} {a : Expr Nat} (hmerge : merges root (.unary tag .neg a) = true) :
    Passes root (.unary tag .neg a) a

/-- The node is an addition or subtraction that belongs to the chain of an expression. -/
inductive Adds (root : IntType) : Expr Nat → Expr Nat → Prop where
  | self {tag : Nat} {op : BinaryOp} {a b : Expr Nat} (hop : DyadicOp.ofBinary? op = none)
    (hmerge : merges root (.binary tag op a b) = true) :
    Adds root (.binary tag op a b) (.binary tag op a b)
  | pass {e a n : Expr Nat} (hpass : Passes root e a) (h : Adds root a n) : Adds root e n
  | first {tag : Nat} {op : BinaryOp} {a b n : Expr Nat} (hop : DyadicOp.ofBinary? op = none)
    (hmerge : merges root (.binary tag op a b) = true) (h : Adds root a n) :
    Adds root (.binary tag op a b) n
  | second {tag : Nat} {op : BinaryOp} {a b n : Expr Nat} (hop : DyadicOp.ofBinary? op = none)
    (hmerge : merges root (.binary tag op a b) = true) (h : Adds root b n) :
    Adds root (.binary tag op a b) n

theorem Passes.child (h : Passes root e a) : a ∈ e.children := by
  cases h <;> simp [Expr.children]

theorem Passes.operand_eq {b : Expr Nat} (h : Passes root e a) (h' : Passes root e b) : a = b := by
  cases h <;> cases h' <;> rfl

theorem Adds.mem_preorder (h : Adds root e n) : n ∈ e.preorder := by
  induction h with
  | self => exact Expr.mem_preorder_self _
  | pass hpass _ ih => exact Expr.mem_preorder_of_child hpass.child ih
  | first _ _ _ ih | second _ _ _ ih =>
    exact Expr.mem_preorder_of_child (by simp [Expr.children]) ih

theorem Passes.adds_iff (hpass : Passes root e a) : Adds root e n ↔ Adds root a n := by
  refine ⟨fun h => ?_, .pass hpass⟩
  cases h with
  | self | first | second => cases hpass
  | pass hpass' h =>
    obtain rfl := hpass.operand_eq hpass'
    exact h

theorem adds_binary_iff {tag : Nat} {op : BinaryOp} {a b : Expr Nat}
    (hop : DyadicOp.ofBinary? op = none) (hmerge : merges root (.binary tag op a b) = true) :
    Adds root (.binary tag op a b) n ↔ n = .binary tag op a b ∨ Adds root a n ∨ Adds root b n := by
  constructor
  · intro h
    cases h with
    | self => exact .inl rfl
    | pass hpass => cases hpass
    | first _ _ h => exact .inr (.inl h)
    | second _ _ h => exact .inr (.inr h)
  · rintro (rfl | h | h)
    · exact .self hop hmerge
    · exact .first hop hmerge h
    · exact .second hop hmerge h

/-- All the ways in which a chain goes on: to the operand of an expression that it passes, to both
operands of an addition that belongs to it, or nowhere. -/
inductive Goes (root : IntType) (negated : Bool) : Expr Nat → Chain → Prop where
  | pass {e a : Expr Nat} (negated' : Bool) (hpass : Passes root e a) :
    Goes root negated e (.pass e.tag (Chain.ofExpr root negated' a))
  | sum {tag : Nat} {op : BinaryOp} {a b : Expr Nat} (hop : DyadicOp.ofBinary? op = none)
    (hmerge : merges root (.binary tag op a b) = true) :
    Goes root negated (.binary tag op a b) (.join tag (Chain.ofExpr root negated a)
      (Chain.ofExpr root (negated ^^ op.subtracts) b))
  | leaf {e : Expr Nat} (hpass : ∀ a, ¬Passes root e a) (hadds : ∀ n, ¬Adds root e n) :
    Goes root negated e (.leaf negated (Canon.ofExpr e))

theorem goes_ofExpr (root : IntType) (negated : Bool) (e : Expr Nat) :
    Goes root negated e (Chain.ofExpr root negated e) := by
  -- what the chain does not pass has additions only if it is one
  have hleaf : ∀ {e : Expr Nat}, (∀ a, ¬Passes root e a) →
      (∀ tag op a b, e = .binary tag op a b → DyadicOp.ofBinary? op = none →
        merges root e ≠ true) →
      Goes root negated e (.leaf negated (Canon.ofExpr e)) := by
    intro e hpass hbinary
    refine .leaf hpass fun n hn => ?_
    cases hn with
    | self hop hmerge | first hop hmerge | second hop hmerge => exact hbinary _ _ _ _ rfl hop hmerge
    | pass h => exact hpass _ h
  cases e with
  | var | const | select => exact hleaf (fun a h => by cases h) (fun _ _ _ _ h => by cases h)
  | cast tag ty a =>
    rw [Chain.ofExpr]
    split
    · rename_i h
      exact .pass negated (.cast (by simpa using h.1) h.2)
    · rename_i h
      rw [← Canon.ofExpr]
      refine hleaf (fun b hb => ?_) (fun _ _ _ _ h => by cases h)
      cases hb with
      | cast hover hadd => exact h ⟨by simpa using hover, hadd⟩
  | unary tag op a =>
    cases op with
    | not => exact hleaf (fun a h => by cases h) (fun _ _ _ _ h => by cases h)
    | neg =>
      rw [Chain.ofExpr]
      split
      · rename_i h
        exact .pass _ (.neg h)
      · rename_i h
        rw [← Canon.ofExpr]
        refine hleaf (fun b hb => ?_) (fun _ _ _ _ h => by cases h)
        cases hb with
        | neg hmerge => exact h hmerge
  | binary tag op a b =>
    have hnone : ∀ x, ¬Passes root (.binary tag op a b) x := fun x h => by cases h
    have hform := hleaf hnone
    rw [Chain.ofExpr]
    rw [Canon.ofExpr] at hform
    cases hop : DyadicOp.ofBinary? op with
    | some op' =>
      rw [hop] at hform
      refine hform fun _ _ _ _ heq hop' => ?_
      obtain ⟨-, rfl, -, -⟩ := Expr.binary.inj heq
      cases hop.symm.trans hop'
    | none =>
      rw [hop] at hform
      simp only
      split
      · rename_i h
        exact .sum hop h
      · rename_i h
        exact hform fun _ _ _ _ _ _ => h

/-! ## Operands that are constants -/

theorem width_of_cast {tag : Nat} (hover : (Expr.cast tag ty a).info.overflow = false) :
    (Expr.cast tag ty a).info.width = a.info.width := by
  rw [Expr.info, Width.cast] at hover ⊢
  split at hover
  · rename_i hheld
    rw [if_pos hheld]
  · cases hover

theorem Narrow.of_passes (h : Narrow root e) (hpass : Passes root e a) :
    Narrow root a ∧ ∀ root', Passes root' e a := by
  cases hpass with
  | cast hover hadd =>
    rcases h with hlt | ⟨hcast, -⟩
    · exact ⟨.inl (width_of_cast hover ▸ hlt), fun _ => .cast hover hadd⟩
    · cases hcast
  | neg hmerge =>
    obtain ⟨hover, hchild⟩ := h.of_merges rfl hmerge
    exact ⟨(hchild a (by simp [Expr.children])).2, fun _ => .neg (by simp [merges, hover])⟩

/-- The additions in the chain of a narrow expression do not overflow, so they belong to the chain
of every type. -/
theorem Adds.of_narrow (h : Adds root e n) (hnarrow : Narrow root e) (root' : IntType) :
    Adds root' e n := by
  induction h with
  | self hop hmerge =>
    obtain ⟨hover, -⟩ := hnarrow.of_merges (isAdditive_of_ofBinary hop) hmerge
    exact .self hop (by simp [merges, hover])
  | pass hpass _ ih =>
    obtain ⟨ha, hpass'⟩ := hnarrow.of_passes hpass
    exact .pass (hpass' root') (ih ha)
  | first hop hmerge _ ih =>
    obtain ⟨hover, hchild⟩ := hnarrow.of_merges (isAdditive_of_ofBinary hop) hmerge
    exact .first hop (by simp [merges, hover]) (ih (hchild _ (by simp [Expr.children])).2)
  | second hop hmerge _ ih =>
    obtain ⟨hover, hchild⟩ := hnarrow.of_merges (isAdditive_of_ofBinary hop) hmerge
    exact .second hop (by simp [merges, hover]) (ih (hchild _ (by simp [Expr.children])).2)

/-- A negation that belongs to a chain has no more additions below it when it stands alone: either
it computes in the type of the chain, or it does not overflow and what it negates is narrow. -/
theorem Adds.of_neg {tag : Nat} (hmerge : merges root (.unary tag .neg a) = true)
    (h : Adds (Expr.unary tag .neg a).ty a n) : Adds root a n := by
  cases hover : (Expr.unary tag .neg a).info.overflow with
  | true =>
    rw [merges, hover] at hmerge
    obtain rfl : (Expr.unary tag .neg a).ty = root := by simpa using hmerge
    exact h
  | false =>
    obtain ⟨hlt, hle⟩ := Expr.width_lt_of_exact (a := a) rfl hover (by simp [Expr.children])
    exact h.of_narrow (.inl (Nat.lt_of_lt_of_le hlt hle)) root

/-- What a chain without additions is: a constant, or one term. -/
inductive Single (e : Expr Nat) (ch : Chain) : Prop where
  | constant (hfolds : e.Folds) (hfolded : ch.folded = true) (hterms : ch.terms = [])
  | term (hfolds : ¬e.Folds) (hfolded : ch.folded = false) (t : Bool × Canon)
    (hterms : ch.terms = [t])

theorem single_leaf (negated : Bool) (e : Expr Nat) :
    Single e (leaf negated (Canon.ofExpr e)) := by
  rw [leaf]
  cases hc : (Canon.ofExpr e).constant? with
  | some v => exact .constant (by rw [Expr.Folds, hc]; rfl) rfl rfl
  | none => exact .term (by rw [Expr.Folds, hc]; exact Bool.false_ne_true) rfl _ rfl

theorem Single.pass {s : Expr Nat} {ch : Chain} {number : Nat} (h : Single s ch)
    (hiff : e.Folds ↔ s.Folds) : Single e (pass number ch) := by
  cases h with
  | constant hfolds hfolded hterms => exact .constant (hiff.mpr hfolds) hfolded hterms
  | term hfolds hfolded t hterms => exact .term (mt hiff.mp hfolds) hfolded t hterms

/-- A negation folds to a constant exactly if nothing but a constant is in its chain. -/
theorem Single.folds_neg {tag : Nat}
    (h : Single a (Chain.ofExpr (Expr.unary tag .neg a).ty true a)) :
    (Expr.unary tag .neg a).Folds ↔ a.Folds := by
  have hremains := remains_ofSum (e := .unary tag .neg a) rfl
  have hleft := fun t => term_left (e := .unary tag .neg a) (t := t)
  rw [Expr.Folds]
  generalize Canon.ofExpr (.unary tag .neg a) = c at hremains
  cases h with
  | constant hfolds _ hterms =>
    have hnil : (ofSum (.unary tag .neg a)).left = [] := left_eq_nil hterms
    refine iff_of_true ?_ hfolds
    cases hremains with
    | const => rfl
    | term c others hsingle => cases hnil.symm.trans hsingle
    | sum _ _ hne => exact absurd hnil hne
  | term hfolds _ t hterms =>
    have hone : (ofSum (.unary tag .neg a)).left = [t] := by
      rw [left, ofSum]
      simp only [Chain.pass, hterms]
      rfl
    refine iff_of_false ?_ hfolds
    cases hremains with
    | const absorbed hnil => cases hnil.symm.trans hone
    | term c others hsingle =>
      rw [Canon.constant_wrap, (only_left hsingle).1]
      exact Bool.false_ne_true
    | sum => exact Bool.false_ne_true

theorem folds_cast {tag : Nat} (hover : (Expr.cast tag ty a).info.overflow = false) :
    (Expr.cast tag ty a).Folds ↔ a.Folds := by
  rw [Expr.Folds, Expr.Folds, Canon.ofExpr, Canon.castNode, hover, Bool.not_false, if_pos rfl,
    Canon.constant_wrap]

/-- **A chain without additions is a constant if its expression folds to one, and one term
otherwise.** -/
theorem single_ofExpr (negated : Bool) (hadds : ∀ n, ¬Adds root e n) :
    Single e (Chain.ofExpr root negated e) := by
  induction hsize : e.size using Nat.strongRecOn generalizing e root negated with
  | ind size ih =>
    subst hsize
    have hgoes := goes_ofExpr root negated e
    generalize Chain.ofExpr root negated e = ch at hgoes
    cases hgoes with
    | leaf => exact single_leaf negated e
    | sum hop hmerge => exact absurd (.self hop hmerge) (hadds _)
    | @pass _ a negated' hpass =>
      have hlt := Expr.size_of_child hpass.child
      have hnone : ∀ n, ¬Adds root a n := fun n h => hadds n (.pass hpass h)
      refine (ih _ hlt negated' hnone rfl).pass ?_
      cases hpass with
      | cast hover => exact folds_cast hover
      | neg hmerge => exact (ih _ hlt true (fun n h => hnone n (h.of_neg hmerge)) rfl).folds_neg

theorem not_folded_of_adds (negated : Bool) (h : Adds root e n) :
    (Chain.ofExpr root negated e).folded = false := by
  induction hsize : e.size using Nat.strongRecOn generalizing e negated with
  | ind size ih =>
    subst hsize
    have hgoes := goes_ofExpr root negated e
    generalize Chain.ofExpr root negated e = ch at hgoes
    cases hgoes with
    | leaf _ hadds => exact absurd h (hadds n)
    | sum => rfl
    | @pass _ a negated' hpass =>
      exact ih _ (Expr.size_of_child hpass.child) negated' (hpass.adds_iff.mp h) rfl

/-- **An operand counts as a constant in a chain exactly if it has no addition of the chain and
folds to a constant.** -/
theorem folded_iff (root : IntType) (negated : Bool) (e : Expr Nat) :
    (Chain.ofExpr root negated e).folded = true ↔ (∀ n, ¬Adds root e n) ∧ e.Folds := by
  constructor
  · intro hfolded
    have hadds : ∀ n, ¬Adds root e n := by
      intro n hn
      cases hfolded.symm.trans (not_folded_of_adds negated hn)
    refine ⟨hadds, ?_⟩
    cases single_ofExpr negated hadds with
    | constant hfolds => exact hfolds
    | term _ hnot => cases hfolded.symm.trans hnot
  · rintro ⟨hadds, hfolds⟩
    cases single_ofExpr negated hadds with
    | constant _ hfolded => exact hfolded
    | term hnot => exact absurd hfolds hnot

/-- **The additions that a chain lists are those with an operand that counts as a constant.** -/
theorem mem_constAdds_iff (negated : Bool) {tag : Nat} :
    tag ∈ (Chain.ofExpr root negated e).constAdds ↔
      ∃ op a b, Adds root e (.binary tag op a b) ∧
        ∃ x ∈ [a, b], (∀ n, ¬Adds root x n) ∧ x.Folds := by
  induction hsize : e.size using Nat.strongRecOn generalizing e negated with
  | ind size ih =>
    subst hsize
    have hgoes := goes_ofExpr root negated e
    generalize Chain.ofExpr root negated e = ch at hgoes
    cases hgoes with
    | leaf _ hadds =>
      have hnil : (leaf negated (Canon.ofExpr e)).constAdds = [] := by
        rw [leaf]
        split <;> rfl
      simp [hnil, hadds]
    | @pass _ a negated' hpass =>
      simp only [hpass.adds_iff]
      exact ih _ (Expr.size_of_child hpass.child) negated' rfl
    | @sum tag' op a b hop hmerge =>
      have ha := ih a.size (Expr.size_of_child (by simp [Expr.children])) negated rfl
      have hb := ih b.size (Expr.size_of_child (by simp [Expr.children]))
        (negated ^^ op.subtracts) rfl
      -- the addition itself is listed if one of its own operands counts as a constant
      have hself : tag ∈ (if (Chain.ofExpr root negated a).folded ||
          (Chain.ofExpr root (negated ^^ op.subtracts) b).folded then [tag'] else []) ↔
          tag = tag' ∧ ∃ x ∈ [a, b], (∀ n, ¬Adds root x n) ∧ x.Folds := by
        simp only [List.mem_ite_nil_right, Bool.or_eq_true, folded_iff,
          List.mem_cons, List.not_mem_nil, or_false, exists_eq_or_imp, exists_eq_left]
        exact and_comm
      rw [Chain.join, List.mem_append, List.mem_append, ha, hb, hself]
      simp only [adds_binary_iff hop hmerge, Expr.binary.injEq, or_and_right, exists_or]
      constructor
      · rintro ((h | h) | ⟨rfl, h⟩)
        · exact .inr (.inl h)
        · exact .inr (.inr h)
        · exact .inl ⟨op, a, b, ⟨rfl, rfl, rfl, rfl⟩, h⟩
      · rintro (⟨_, _, _, ⟨rfl, rfl, rfl, rfl⟩, h⟩ | h | h)
        · exact .inr ⟨rfl, h⟩
        · exact .inl (.inl h)
        · exact .inl (.inr h)

end Chain
end CustomIsa
