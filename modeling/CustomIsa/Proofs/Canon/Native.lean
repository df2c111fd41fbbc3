import Mathlib.Data.List.Nodup
import Mathlib.Data.List.Pairwise
import CustomIsa.Proofs.Canon.Balance
import CustomIsa.Proofs.Canon.Visible
/-! # Forms of native expressions

A native expression has variables of one type that has at least 32 bits, no constants, no casts and
no comparisons, so all of it is computed in that type (`Expr.Native`). Nested additions then always
belong to the sum around them. A form holds the variables of its expression, and equal keys have
equal variables (`Canon.names_of_key`); so if every variable occurs once, nothing cancels, and every
form is known from the forms of its operands (`Canon.nativeForm`). -/
namespace CustomIsa
open Canon (plainNames ofExpr)

namespace Expr
variable {α : Type} {ty : IntType}

/-- The variables of an expression in the order of the text, each as often as it occurs. -/
def names : Expr α → List String
  | .var _ name _ => [name]
  | .const _ _ _ => []
  | .unary _ _ a | .cast _ _ a => a.names
  | .binary _ _ a b => a.names ++ b.names
  | .select _ c a b => c.names ++ a.names ++ b.names

/-- The expression has variables of the given type, no constants, no casts and no comparisons. -/
def Native (ty : IntType) : Expr α → Prop
  | .var _ _ vty => vty = ty
  | .unary _ _ a => a.Native ty
  | .binary _ op a b => op.isComparison = false ∧ a.Native ty ∧ b.Native ty
  | .const _ _ _ | .cast _ _ _ | .select _ _ _ _ => False

namespace Native
variable {e : Expr α}

/-- **A native expression is computed in its type.** -/
theorem ty_eq (hbits : 32 ≤ ty.bits) (h : e.Native ty) : e.ty = ty := by
  have hpromoted : ty.promoted = ty := by
    rw [IntType.promoted, if_neg (by omega)]
  induction e with
  | var => exact h
  | const | cast | select => exact h.elim
  | unary _ _ a ih => rw [Expr.ty, ih h, hpromoted]
  | binary _ op a b iha ihb =>
    rw [Expr.ty, iha h.2.1, ihb h.2.2, BinaryOp.resultType, h.1]
    split
    · exact hpromoted
    · obtain ⟨bits, signed⟩ := ty
      simp [IntType.common, hpromoted]

theorem names_ne_nil (h : e.Native ty) : e.names ≠ [] := by
  induction e with
  | var => exact List.cons_ne_nil _ _
  | const | cast | select => exact h.elim
  | unary _ _ a ih => exact ih h
  | binary _ op a b iha _ => exact List.append_ne_nil_of_left_ne_nil (iha h.2.1) _

theorem obeys (h : e.Native ty) (hplain : ∀ name ∈ e.names, Key.Plain name.toList) :
    e.Obeys plainNames := by
  induction e with
  | var => exact hplain _ List.mem_cons_self
  | const | cast | select => exact h.elim
  | unary _ _ a ih => exact ih h hplain
  | binary _ op a b iha ihb =>
    exact ⟨iha h.2.1 fun name hname => hplain name (List.mem_append_left _ hname),
      ihb h.2.2 fun name hname => hplain name (List.mem_append_right _ hname)⟩

end Native
end Expr

/-! ## The variables of a form -/

namespace Canon

/-- The name of a variable. -/
def name? : Canon → Option String
  | .var _ name => some name
  | _ => none

/-- The variables of a form, each as often as it occurs. -/
def names (c : Canon) : List String := c.preorder.filterMap name?

theorem names_eq (c : Canon) : c.names = c.name?.toList ++ c.children.flatMap names := by
  rw [names, preorder_eq, List.filterMap_cons, List.filterMap_flatMap]
  cases c.name? <;> rfl

theorem Alike.name?_eq {c c' : Canon} (h : Alike c c') : c.name? = c'.name? := by
  cases h <;> rfl

theorem Alike.children {c c' : Canon} (h : Alike c c') :
    List.Forall₂ (fun a a' => a.key = a'.key) c.children c'.children := by
  cases h with
  | var | const => exact .nil
  | monadic _ _ _ ha => exact .cons ha .nil
  | dyadic _ _ _ ha hb => exact .cons ha (.cons hb .nil)
  | select _ _ hc ha hb => exact .cons hc (.cons ha (.cons hb .nil))
  | sum _ _ _ _ _ hts =>
    refine List.forall₂_map_left_iff.mpr (List.forall₂_map_right_iff.mpr ?_)
    exact hts.imp fun _ _ ht => ht.2

theorem flatMap_eq_of_forall₂ {α β : Type} {R : α → α → Prop} {f : α → List β} {l l' : List α}
    (h : List.Forall₂ R l l') (hf : ∀ a ∈ l, ∀ a' ∈ l', R a a' → f a = f a') :
    l.flatMap f = l'.flatMap f := by
  induction h with
  | nil => rfl
  | cons hr _ ih =>
    rw [List.flatMap_cons, List.flatMap_cons, hf _ List.mem_cons_self _ List.mem_cons_self hr,
      ih fun a ha a' ha' => hf a (List.mem_cons_of_mem _ ha) a' (List.mem_cons_of_mem _ ha')]

/-- **Forms with equal keys have the same variables.** -/
theorem names_of_key {m n : Expr Nat} (hm : m.Obeys plainNames) (hn : n.Obeys plainNames)
    (hkey : (ofExpr m).key = (ofExpr n).key) : (ofExpr m).names = (ofExpr n).names := by
  induction hsize : m.size using Nat.strongRecOn generalizing m n with
  | ind size ih =>
    subst hsize
    have halike := alike_of_key (clear_ofExpr hm) (clear_ofExpr hn) hkey
    have hbelow : ∀ a ∈ (ofExpr m).children, ∀ a' ∈ (ofExpr n).children, a.key = a'.key →
        a.names = a'.names := by
      intro a ha a' ha' hkey
      obtain ⟨s, hs, rfl⟩ := child_ofExpr ha
      obtain ⟨s', hs', rfl⟩ := child_ofExpr ha'
      exact ih _ hs.size (hm.of_mem_preorder hs.mem) (hn.of_mem_preorder hs'.mem) hkey rfl
    rw [names_eq, names_eq (ofExpr n), halike.name?_eq,
      flatMap_eq_of_forall₂ halike.children hbelow]

theorem names_wrap (c : Canon) (e : Expr Nat) (others : List Nat) :
    (c.wrap e others).names = c.names := by
  rw [names_eq, names_eq c]
  cases c <;> rfl

theorem names_sum (o : Origin) (terms : List (Bool × Canon)) (k : Int) (adds : List Nat) :
    (Canon.sum o terms k adds).names = terms.flatMap fun t => t.2.names := by
  rw [names_eq]
  exact List.flatMap_map _ _ _

end Canon

/-! ## Expressions that read every variable once -/

/-- A native expression in which every variable occurs once. -/
structure Expr.ReadsOnce (ty : IntType) (e : Expr Nat) : Prop where
  native : e.Native ty
  once : e.names.Nodup
  plain : ∀ name ∈ e.names, Key.Plain name.toList

namespace Expr.ReadsOnce
variable {ty : IntType} {tag : Nat} {op : BinaryOp} {a b : Expr Nat}

theorem operand {op : UnaryOp} (h : (Expr.unary tag op a).ReadsOnce ty) : a.ReadsOnce ty :=
  ⟨h.native, h.once, h.plain⟩

theorem left (h : (Expr.binary tag op a b).ReadsOnce ty) : a.ReadsOnce ty :=
  ⟨h.native.2.1, (List.nodup_append.mp h.once).1,
    fun name hname => h.plain name (List.mem_append_left _ hname)⟩

theorem right (h : (Expr.binary tag op a b).ReadsOnce ty) : b.ReadsOnce ty :=
  ⟨h.native.2.2, (List.nodup_append.mp h.once).2.1,
    fun name hname => h.plain name (List.mem_append_right _ hname)⟩

end Expr.ReadsOnce

namespace Chain
variable {ty : IntType} {e : Expr Nat} {ch : Chain}

/-- The terms of the chain hold the variables of the expression, each of them at least one, and
there is no constant. -/
structure Spreads (e : Expr Nat) (ch : Chain) : Prop where
  constant : ch.constant = 0
  names : (ch.terms.flatMap fun t => t.2.names).Perm e.names
  occurs : ∀ t ∈ ch.terms, t.2.names ≠ []

theorem length_le_flatMap {α β : Type} {f : α → List β} {l : List α} (h : ∀ a ∈ l, f a ≠ []) :
    l.length ≤ (l.flatMap f).length := by
  induction l with
  | nil => exact Nat.le_refl _
  | cons a l ih =>
    obtain ⟨ha, hl⟩ := List.forall_mem_cons.mp h
    have hpos := List.length_pos_iff.mpr ha
    have hrest := ih hl
    rw [List.flatMap_cons, List.length_append, List.length_cons]
    omega

theorem Spreads.length_le (h : Spreads e ch) : ch.terms.length ≤ e.names.length := by
  rw [← h.names.length_eq]
  exact length_le_flatMap h.occurs

/-- **Where every variable occurs once, no two terms have the same key.** -/
theorem Spreads.oneSided {negated : Bool} (h : Spreads e (Chain.ofExpr ty negated e))
    (he : e.ReadsOnce ty) : OneSided (Chain.ofExpr ty negated e).terms := by
  have hobeys := he.native.obeys he.plain
  have hnodup := h.names.nodup_iff.mpr he.once
  have hdisjoint := (List.nodup_flatMap.mp hnodup).2
  intro s hs t ht hkey
  have hnames : s.2.names = t.2.names := by
    obtain ⟨-, m, hm, heq⟩ := term_ofExpr negated e hs
    obtain ⟨-, n, hn, heq'⟩ := term_ofExpr negated e ht
    rw [heq, heq'] at hkey ⊢
    exact Canon.names_of_key (hobeys.of_mem_preorder hm.mem_preorder)
      (hobeys.of_mem_preorder hn.mem_preorder) hkey
  by_contra hsign
  have hne : s ≠ t := fun heq => hsign (congrArg Prod.fst heq)
  have hsymm : Std.Symm (Function.onFun List.Disjoint fun t : Bool × Canon => t.2.names) :=
    ⟨fun _ _ hst _ ht hs => hst hs ht⟩
  have hapart := hdisjoint.forall hs ht hne
  obtain ⟨name, hname⟩ := List.exists_mem_of_ne_nil _ (h.occurs s hs)
  rw [hnames] at hname
  exact hapart (hnames.symm ▸ hname : name ∈ s.2.names) hname

theorem constantIn_zero (hproper : e.ty.Proper) (h : ch.constant = 0) : ch.constantIn e = 0 := by
  rw [constantIn, h, IntType.reduce_zero hproper, ite_self]

theorem leaf_of_constant {c : Canon} (hc : c.constant? = none) (negated : Bool) :
    leaf negated c = { terms := [(negated, c)] } := by
  rw [leaf, hc]

theorem Spreads.leaf (hc : (Canon.ofExpr e).constant? = none)
    (hnames : (Canon.ofExpr e).names.Perm e.names) (he : e.Native ty) (negated : Bool) :
    Spreads e (leaf negated (Canon.ofExpr e)) := by
  rw [leaf_of_constant hc]
  refine ⟨rfl, ?_, ?_⟩
  · rw [List.flatMap_singleton]
    exact hnames
  · intro t ht hnil
    rw [List.mem_singleton.mp ht] at hnil
    rw [hnil] at hnames
    exact he.names_ne_nil (List.nil_perm.mp hnames)

theorem Spreads.join {tag : Nat} {op : BinaryOp} {a b : Expr Nat} {ch ch' : Chain}
    (ha : Spreads a ch) (hb : Spreads b ch') (number : Nat) :
    Spreads (.binary tag op a b) (join number ch ch') := by
  refine ⟨?_, ?_, ?_⟩
  · rw [Chain.join, ha.constant, hb.constant]
    rfl
  · rw [Chain.join, List.flatMap_append]
    exact ha.names.append hb.names
  · intro t ht
    rcases List.mem_append.mp ht with ht | ht
    · exact ha.occurs t ht
    · exact hb.occurs t ht

theorem isAdditive_of_dyadic {tag : Nat} {op : BinaryOp} {op' : DyadicOp} {a b : Expr Nat}
    (h : DyadicOp.ofBinary? op = some op') : (Expr.binary tag op a b).isAdditive = false := by
  cases op <;> first | rfl | cases h

/-! Nested additions and negations are computed in the type of the sum around them, so all of them
belong to it, and nothing else does. -/

theorem ofExpr_of_not_isAdditive (he : e.Native ty) (hadd : e.isAdditive = false) (negated : Bool) :
    Chain.ofExpr ty negated e = .leaf negated (Canon.ofExpr e) := by
  cases e with
  | var => rw [Chain.ofExpr, Canon.ofExpr]
  | const | cast | select => exact he.elim
  | unary _ op a =>
    cases op with
    | not => rw [Chain.ofExpr, Canon.ofExpr]
    | neg => cases hadd
  | binary tag op a b =>
    cases hop : DyadicOp.ofBinary? op with
    | some op' => rw [Chain.ofExpr, Canon.ofExpr, hop]
    | none => cases hadd.symm.trans (isAdditive_of_ofBinary hop)

theorem ofExpr_neg {tag : Nat} {a : Expr Nat} (hbits : 32 ≤ ty.bits)
    (he : (Expr.unary tag .neg a).Native ty) (negated : Bool) :
    Chain.ofExpr ty negated (.unary tag .neg a) = .pass tag (Chain.ofExpr ty (!negated) a) := by
  have hmerge : merges ty (.unary tag .neg a) = true := by
    simp [merges, he.ty_eq hbits]
  rw [Chain.ofExpr, if_pos hmerge]
  rfl

theorem ofExpr_binary {tag : Nat} {op : BinaryOp} {a b : Expr Nat} (hbits : 32 ≤ ty.bits)
    (he : (Expr.binary tag op a b).Native ty) (hop : DyadicOp.ofBinary? op = none)
    (negated : Bool) :
    Chain.ofExpr ty negated (.binary tag op a b) =
      .join tag (Chain.ofExpr ty negated a) (Chain.ofExpr ty (negated ^^ op.subtracts) b) := by
  have hmerge : merges ty (.binary tag op a b) = true := by
    simp [merges, he.ty_eq hbits]
  rw [Chain.ofExpr, hop]
  simp only [hmerge, if_true]
  rfl

end Chain

namespace Canon
variable {ty : IntType} {e : Expr Nat}

theorem ofExpr_of_isAdditive (h : e.isAdditive = true) :
    ofExpr e = (Chain.ofExpr e.ty false e).toCanon e := by
  rw [← Chain.ofSum_eq h]
  cases e with
  | var | const | cast | select => cases h
  | unary tag op a =>
    cases op with
    | not => cases h
    | neg =>
      rw [ofExpr]
      rfl
  | binary tag op a b =>
    have hop : DyadicOp.ofBinary? op = none := by cases op <;> first | rfl | cases h
    rw [ofExpr, hop]
    rfl

theorem ofExpr_not (tag : Nat) {a : Expr Nat} (ha : (ofExpr a).constant? = none) :
    ofExpr (.unary tag .not a) = .monadic (.ofExpr (.unary tag .not a)) .not (ofExpr a) := by
  rw [ofExpr, notNode, ha]

/-- An operation on two forms that are no constants is kept, with its operands in either order if
they may change places. -/
theorem ofExpr_dyadic (tag : Nat) {op : BinaryOp} {op' : DyadicOp} {a b : Expr Nat}
    (hop : DyadicOp.ofBinary? op = some op') (ha : (ofExpr a).constant? = none)
    (hb : (ofExpr b).constant? = none) :
    ∃ o, ofExpr (.binary tag op a b) = .dyadic o op' (ofExpr a) (ofExpr b) ∨
      op'.commutes = true ∧ ofExpr (.binary tag op a b) = .dyadic o op' (ofExpr b) (ofExpr a) := by
  have hmade := made_ofExpr (.binary tag op a b)
  have hmask : ∀ {value mask : Canon}, mask.constant? = none → keepsAll value mask ≠ true := by
    intro value mask hnone hkeeps
    have hsome := constant_of_keepsAll hkeeps
    rw [hnone] at hsome
    cases hsome
  generalize ofExpr (.binary tag op a b) = c at hmade
  cases hmade with
  | sum _ _ hadd =>
    revert hop hadd
    cases op <;> simp [Expr.isAdditive, DyadicOp.ofBinary?]
  | folded _ _ _ _ _ va _ _ _ _ hva => cases ha.symm.trans hva
  | masked _ _ _ _ hkeeps => exact absurd hkeeps (hmask hb)
  | maskedBy _ _ _ _ hkeeps => exact absurd hkeeps (hmask ha)
  | dyadic _ _ op'' _ _ hop'' =>
    obtain rfl := Option.some.inj (hop.symm.trans hop'')
    exact ⟨_, .inl rfl⟩
  | swapped _ _ op'' _ _ hop'' hcomm =>
    obtain rfl := Option.some.inj (hop.symm.trans hop'')
    exact ⟨_, .inr ⟨hcomm, rfl⟩⟩

/-- The form of an expression is no constant and holds its variables, and so does its chain. -/
structure NativeForm (ty : IntType) (e : Expr Nat) : Prop where
  constant : (ofExpr e).constant? = none
  names : (ofExpr e).names.Perm e.names
  chain : ∀ negated, Chain.Spreads e (Chain.ofExpr ty negated e)

/-- What is no sum is one term of the chain around it. -/
theorem NativeForm.of_leaf (he : e.Native ty) (hadd : e.isAdditive = false)
    (hc : (ofExpr e).constant? = none) (hnames : (ofExpr e).names.Perm e.names) :
    NativeForm ty e := by
  refine ⟨hc, hnames, fun negated => ?_⟩
  rw [Chain.ofExpr_of_not_isAdditive he hadd]
  exact .leaf hc hnames he negated

/-- Nothing cancels in a sum that reads every variable once. -/
theorem uncancelled_ofExpr (hbits : 32 ≤ ty.bits) (he : e.ReadsOnce ty) (hadd : e.isAdditive = true)
    (hchain : Chain.Spreads e (Chain.ofExpr ty false e)) :
    Chain.Uncancelled e (Chain.ofExpr ty false e) (ofExpr e) := by
  have hform := ofExpr_of_isAdditive hadd
  rw [he.native.ty_eq hbits] at hform
  rw [hform]
  exact Chain.uncancelled_toCanon e (hchain.oneSided he)

theorem NativeForm.of_chain (hbits : 32 ≤ ty.bits) (he : e.ReadsOnce ty)
    (hadd : e.isAdditive = true)
    (hchain : ∀ negated, Chain.Spreads e (Chain.ofExpr ty negated e)) : NativeForm ty e := by
  obtain ⟨-, hnames, -⟩ := hchain false
  have hform : (ofExpr e).constant? = none ∧ (ofExpr e).names.Perm e.names := by
    have hsum := uncancelled_ofExpr hbits he hadd (hchain false)
    generalize ofExpr e = c at hsum
    cases hsum with
    | const absorbed hterms =>
      rw [hterms] at hnames
      exact absurd (List.nil_perm.mp hnames) he.native.names_ne_nil
    | term c others hterms hk =>
      have hmem : (false, c) ∈ (Chain.ofExpr ty false e).terms := by simp [hterms]
      rw [hterms, List.flatMap_singleton] at hnames
      refine ⟨?_, ?_⟩
      · rw [← (same_wrap c e others).constant]
        exact (Chain.term_ofExpr false e hmem).1
      · rw [names_wrap]
        exact hnames
    | sum absorbed adds hne hmore =>
      refine ⟨rfl, ?_⟩
      rw [names_sum]
      exact ((Sorting.sort_perm _ _).flatMap_right _).trans hnames
  exact ⟨hform.1, hform.2, hchain⟩

/-- **A native expression that reads every variable once has a form that holds its variables.** -/
theorem nativeForm (hbits : 32 ≤ ty.bits) (he : e.ReadsOnce ty) : NativeForm ty e := by
  induction e with
  | var tag name vty =>
    refine .of_leaf he.native rfl ?_ ?_
    · rw [ofExpr]
      rfl
    · rw [ofExpr, names_eq]
      exact .refl _
  | const | cast | select => exact he.native.elim
  | unary tag op a ih =>
    have ha := ih he.operand
    cases op with
    | not =>
      have hform := ofExpr_not tag ha.constant
      refine .of_leaf he.native rfl ?_ ?_
      · rw [hform]
        rfl
      · rw [hform, names_eq]
        simpa [name?, children, Expr.names] using ha.names
    | neg =>
      refine .of_chain hbits he rfl fun negated => ?_
      rw [Chain.ofExpr_neg hbits he.native]
      obtain ⟨hconstant, hnames, hoccurs⟩ := ha.chain (!negated)
      exact ⟨hconstant, hnames, hoccurs⟩
  | binary tag op a b iha ihb =>
    have ha := iha he.left
    have hb := ihb he.right
    cases hop : DyadicOp.ofBinary? op with
    | some op' =>
      obtain ⟨o, hform⟩ := ofExpr_dyadic tag hop ha.constant hb.constant
      refine .of_leaf he.native (Chain.isAdditive_of_dyadic hop) ?_ ?_
      · rcases hform with hform | ⟨-, hform⟩ <;> rw [hform] <;> rfl
      · have hboth := ha.names.append hb.names
        rcases hform with hform | ⟨-, hform⟩
        · rw [hform, names_eq]
          simpa [name?, children, Expr.names] using hboth
        · rw [hform, names_eq]
          simpa [name?, children, Expr.names] using List.perm_append_comm.trans hboth
    | none =>
      refine .of_chain hbits he (Chain.isAdditive_of_ofBinary hop) fun negated => ?_
      rw [Chain.ofExpr_binary hbits he.native hop]
      exact (ha.chain negated).join (hb.chain _) _

end Canon
end CustomIsa
