import Mathlib.Data.List.Perm.Basic
import CustomIsa.Proofs.Canon.Balance
import CustomIsa.Proofs.Canon.Visible
import CustomIsa.Proofs.Expr.Reordered
/-! # Forms of reordered expressions

Reordered expressions do not have the same canonical form. Operands are put in the order of their
keys, but keys leave types out, so operands with one key that differ in their types may stand in
either order, and so may the terms of a sum; and the source nodes that a node stands for are
different ones. Forms that differ in this way only are similar (`Canon.Similar`). Without a minus
nothing cancels, and then the forms of reordered expressions are similar
(`Expr.Reordered.similarForms`). -/
namespace CustomIsa

/-- Nodes with these origins have values of one type and width, and both or none of them have a
value in the source. -/
structure Origin.Alike (o o' : Origin) : Prop where
  ty : o.ty = o'.ty
  info : o.info = o'.info
  synthetic : o.synthetic = o'.synthetic

namespace Canon

mutual

/-- The forms differ in what they stand for, in the order of operands with one key, and in the order
of terms only. -/
inductive Similar : Canon → Canon → Prop where
  | var {o o' name} (ho : o.Alike o') : Similar (.var o name) (.var o' name)
  | const {o o' v} (ho : o.Alike o') : Similar (.const o v) (.const o' v)
  | monadic {o o' op a a'} (ho : o.Alike o') (ha : Similar a a') :
    Similar (.monadic o op a) (.monadic o' op a')
  | dyadic {o o' op a b a' b'} (ho : o.Alike o') (ha : Similar a a') (hb : Similar b b') :
    Similar (.dyadic o op a b) (.dyadic o' op a' b')
  | swapped {o o' op a b a' b'} (ho : o.Alike o') (hop : op.commutes = true)
    (hkey : a.key = b.key) (ha : Similar a b') (hb : Similar b a') :
    Similar (.dyadic o op a b) (.dyadic o' op a' b')
  | select {o o' c a b c' a' b'} (ho : o.Alike o') (hc : Similar c c') (ha : Similar a a')
    (hb : Similar b b') : Similar (.select o c a b) (.select o' c' a' b')
  | sum {o o' ts us ts' k adds adds'} (ho : o.Alike o') (hts : SimilarTerms ts us)
    (hperm : us.Perm ts') (hkeys : termKeys us = termKeys ts') :
    Similar (.sum o ts k adds) (.sum o' ts' k adds')

/-- The terms are similar one by one, with equal signs. -/
inductive SimilarTerms : List (Bool × Canon) → List (Bool × Canon) → Prop where
  | nil : SimilarTerms [] []
  | cons {negated c c' ts ts'} (hc : Similar c c') (hts : SimilarTerms ts ts') :
    SimilarTerms ((negated, c) :: ts) ((negated, c') :: ts')

end

/-- Two terms of equal sign are similar. -/
def SimilarTerm (s t : Bool × Canon) : Prop := s.1 = t.1 ∧ Similar s.2 t.2

theorem similarTerms_iff {ts us : List (Bool × Canon)} :
    SimilarTerms ts us ↔ List.Forall₂ SimilarTerm ts us := by
  constructor
  · intro h
    induction ts generalizing us with
    | nil =>
      cases h
      exact .nil
    | cons t ts ih =>
      cases h with
      | cons hc hts => exact .cons ⟨rfl, hc⟩ (ih hts)
  · intro h
    induction h with
    | nil => exact .nil
    | @cons s t _ _ hst _ ih =>
      obtain ⟨negated, c⟩ := s
      obtain ⟨negated', c'⟩ := t
      obtain ⟨rfl, hc⟩ := hst
      exact .cons hc ih

namespace Similar
variable {c c' : Canon}

theorem origin (h : Similar c c') : c.origin.Alike c'.origin := by
  cases h <;> assumption

theorem constant (h : Similar c c') : c.constant? = c'.constant? := by
  cases h <;> rfl

theorem withOrigin {o o' : Origin} (h : Similar c c') (ho : o.Alike o') :
    Similar (c.withOrigin o) (c'.withOrigin o') := by
  cases h with
  | var => exact .var ho
  | const => exact .const ho
  | monadic _ ha => exact .monadic ho ha
  | dyadic _ ha hb => exact .dyadic ho ha hb
  | swapped _ hop hkey ha hb => exact .swapped ho hop hkey ha hb
  | select _ hc ha hb => exact .select ho hc ha hb
  | sum _ hts hperm hkeys => exact .sum ho hts hperm hkeys

theorem wrap (h : Similar c c') (e e' : Expr Nat) (others others' : List Nat) :
    Similar (c.wrap e others) (c'.wrap e' others') :=
  h.withOrigin ⟨h.origin.ty, h.origin.info, h.origin.synthetic⟩

end Similar

mutual

theorem Similar.refl : ∀ c : Canon, Similar c c
  | .var _ _ => .var ⟨rfl, rfl, rfl⟩
  | .const _ _ => .const ⟨rfl, rfl, rfl⟩
  | .monadic _ _ a => .monadic ⟨rfl, rfl, rfl⟩ (.refl a)
  | .dyadic _ _ a b => .dyadic ⟨rfl, rfl, rfl⟩ (.refl a) (.refl b)
  | .select _ c a b => .select ⟨rfl, rfl, rfl⟩ (.refl c) (.refl a) (.refl b)
  | .sum _ ts _ _ => .sum ⟨rfl, rfl, rfl⟩ (.refl ts) (.refl ts) rfl

theorem SimilarTerms.refl : ∀ ts : List (Bool × Canon), SimilarTerms ts ts
  | [] => .nil
  | (_, c) :: ts => .cons (.refl c) (.refl ts)

end

/-- A node that hands on a value has its form, apart from the nodes it stands for. -/
theorem similar_wrap (c : Canon) (e : Expr Nat) (others : List Nat) :
    Similar c (c.wrap e others) := by
  have horigin : c.origin.Alike (c.origin.wrap e others) := ⟨rfl, rfl, rfl⟩
  have h := (Similar.refl c).withOrigin horigin
  rwa [withOrigin_origin] at h

mutual

/-- **Similar forms have the same key.** -/
theorem Similar.key_eq : ∀ {c c' : Canon}, Similar c c' → c.key = c'.key
  | _, _, .var _ => by rw [key, key]
  | _, _, .const _ => by rw [key, key]
  | _, _, .monadic _ ha => by rw [key, key, ha.key_eq]
  | _, _, .dyadic _ ha hb => by rw [key, key, ha.key_eq, hb.key_eq]
  | _, _, .swapped _ _ hkey ha hb => by rw [key, key, ← ha.key_eq, ← hb.key_eq, hkey]
  | _, _, .select _ hc ha hb => by rw [key, key, hc.key_eq, ha.key_eq, hb.key_eq]
  | _, _, .sum _ hts _ hkeys => by rw [key, key, hts.termKeys_eq, hkeys]

theorem SimilarTerms.termKeys_eq : ∀ {ts ts' : List (Bool × Canon)}, SimilarTerms ts ts' →
    termKeys ts = termKeys ts'
  | _, _, .nil => rfl
  | _, _, .cons hc hts => by rw [termKeys, termKeys, hc.key_eq, hts.termKeys_eq]

end

/-! ## Nodes -/

section
variable {e e' : Expr Nat} (hty : e.ty = e'.ty) (hinfo : e.info = e'.info) {a b a' b' : Canon}
include hty hinfo

theorem alike_ofExpr (absorbed absorbed' : List Nat) :
    (Origin.ofExpr e absorbed).Alike (Origin.ofExpr e' absorbed') := ⟨hty, hinfo, rfl⟩

theorem Similar.castNode (ty : IntType) (ha : Similar a a') :
    Similar (Canon.castNode e ty a) (Canon.castNode e' ty a') := by
  unfold Canon.castNode
  rw [← hinfo, ← ha.constant]
  split
  · exact ha.wrap e e' _ _
  · split
    · exact .const (alike_ofExpr hty hinfo _ _)
    · exact .monadic (alike_ofExpr hty hinfo _ _) ha

theorem Similar.notNode (ha : Similar a a') :
    Similar (Canon.notNode e a) (Canon.notNode e' a') := by
  unfold Canon.notNode
  rw [← hty, ← ha.constant]
  split
  · exact .const (alike_ofExpr hty hinfo _ _)
  · exact .monadic (alike_ofExpr hty hinfo _ _) ha

end

/-- The operands are similar one by one, or crosswise if the operator allows it. -/
def SimilarOperands (op : DyadicOp) (a b a' b' : Canon) : Prop :=
  Similar a a' ∧ Similar b b' ∨ op.commutes = true ∧ Similar a b' ∧ Similar b a'

/-- Putting operands in the order of their keys makes them similar one by one, unless their keys are
equal. -/
theorem Similar.ordered {op : DyadicOp} {o o' : Origin} {a b a' b' : Canon} (ho : o.Alike o')
    (hop : op.commutes = true) (h : SimilarOperands op a b a' b') :
    Similar (.dyadic o op (Canon.ordered a b).1 (Canon.ordered a b).2)
      (.dyadic o' op (Canon.ordered a' b').1 (Canon.ordered a' b').2) := by
  unfold Canon.ordered
  rcases h with ⟨ha, hb⟩ | ⟨-, ha, hb⟩
  · rw [← ha.key_eq, ← hb.key_eq]
    split
    · exact .dyadic ho hb ha
    · exact .dyadic ho ha hb
  · rw [← ha.key_eq, ← hb.key_eq]
    by_cases hlt : b.key < a.key
    · rw [if_pos hlt, if_neg (String.lt_asymm hlt)]
      exact .dyadic ho hb ha
    · rw [if_neg hlt]
      by_cases hgt : a.key < b.key
      · rw [if_pos hgt]
        exact .dyadic ho ha hb
      · rw [if_neg hgt]
        have hkey : a.key = b.key :=
          String.le_antisymm (String.not_lt.mp hlt) (String.not_lt.mp hgt)
        exact .swapped ho hop hkey ha hb

theorem keepsAll_eq {value mask value' mask' : Canon} (hvalue : Similar value value')
    (hmask : Similar mask mask') : keepsAll value mask = keepsAll value' mask' := by
  have hinfo : value.info = value'.info := hvalue.origin.info
  unfold keepsAll
  rw [hmask.constant, hvalue.constant, hinfo]

end Canon

theorem DyadicOp.fold?_comm {op : DyadicOp} (h : op.commutes = true) (a b : Int) :
    op.fold? a b = op.fold? b a := by
  have hbits : ∀ f : BitVec 128 → BitVec 128 → BitVec 128, (∀ x y, f x y = f y x) →
      Bits.bitwise128 f a b = Bits.bitwise128 f b a := by
    intro f hf
    unfold Bits.bitwise128
    rw [hf]
  unfold fold?
  cases op with
  | mul => rw [Int.mul_comm]
  | and => rw [hbits _ BitVec.and_comm]
  | or => rw [hbits _ BitVec.or_comm]
  | xor => rw [hbits _ BitVec.xor_comm]
  | max => rw [Int.max_comm]
  | min => rw [Int.min_comm]
  | eq => simp only [eq_comm]
  | ne => simp only [ne_comm]
  | _ => cases h

namespace Canon

/-- What is kept by a mask is no constant, so it is no mask itself. -/
theorem not_keepsAll_of_keepsAll {a b : Canon} (h : keepsAll a b = true) :
    keepsAll b a = false := by
  unfold keepsAll at h ⊢
  split at h
  · rw [Bool.and_eq_true, Option.isNone_iff_eq_none] at h
    rw [h.2]
    rfl
  · cases h

section
variable {e e' : Expr Nat} (hty : e.ty = e'.ty) (hinfo : e.info = e'.info) {op : DyadicOp}
  {a b a' b' : Canon}
include hty hinfo

/-- Constants are folded on both sides or on none, to one value. -/
theorem similar_folded (h : SimilarOperands op a b a' b') :
    (∃ c c', folded? e op a b = some c ∧ folded? e' op a' b' = some c' ∧ Similar c c') ∨
      folded? e op a b = none ∧ folded? e' op a' b' = none := by
  have hvalue : (a.constant?.bind fun va => b.constant?.bind fun vb => op.fold? va vb) =
      a'.constant?.bind fun va => b'.constant?.bind fun vb => op.fold? va vb := by
    rcases h with ⟨ha, hb⟩ | ⟨hop, ha, hb⟩
    · rw [ha.constant, hb.constant]
    · rw [ha.constant, hb.constant]
      cases a'.constant? <;> cases b'.constant? <;> simp [DyadicOp.fold?_comm hop]
  have hfold : ∀ (x : Expr Nat) (c d : Canon), folded? x op c d =
      (c.constant?.bind fun vc => d.constant?.bind fun vd => op.fold? vc vd).map fun v =>
        .const (.ofExpr x (x.tag :: (c.origin.absorbed ++ d.origin.absorbed))) (x.ty.reduce v) := by
    intro x c d
    unfold folded?
    cases c.constant? with
    | none => rfl
    | some vc =>
      cases d.constant? with
      | none => rfl
      | some vd => cases hv : op.fold? vc vd <;> simp [hv]
  rw [hfold, hfold, ← hvalue, ← hty]
  cases a.constant?.bind fun va => b.constant?.bind fun vb => op.fold? va vb with
  | none => exact .inr ⟨rfl, rfl⟩
  | some v => exact .inl ⟨_, _, rfl, rfl, .const (alike_ofExpr hty hinfo _ _)⟩

theorem Similar.dyadicNode (h : SimilarOperands op a b a' b') :
    Similar (Canon.dyadicNode e op a b) (Canon.dyadicNode e' op a' b') := by
  have ho := fun l l' => alike_ofExpr hty hinfo l l'
  unfold Canon.dyadicNode
  rcases similar_folded hty hinfo h with ⟨c, c', hc, hc', hsimilar⟩ | ⟨hnone, hnone'⟩
  · rw [hc, hc']
    exact hsimilar
  rw [hnone, hnone']
  simp only
  have hrest : Similar
      (if op.commutes = true then
        .dyadic (.ofExpr e) op (Canon.ordered a b).1 (Canon.ordered a b).2
      else .dyadic (.ofExpr e) op a b)
      (if op.commutes = true then
        .dyadic (.ofExpr e') op (Canon.ordered a' b').1 (Canon.ordered a' b').2
      else .dyadic (.ofExpr e') op a' b') := by
    by_cases hop : op.commutes = true
    · rw [if_pos hop, if_pos hop]
      exact .ordered (ho _ _) hop h
    · rw [if_neg hop, if_neg hop]
      rcases h with ⟨ha, hb⟩ | ⟨hcomm, -⟩
      · exact .dyadic (ho _ _) ha hb
      · exact absurd hcomm hop
  rcases h with ⟨ha, hb⟩ | ⟨-, ha, hb⟩
  · rw [← keepsAll_eq ha hb, ← keepsAll_eq hb ha]
    split
    · exact ha.wrap e e' _ _
    split
    · exact hb.wrap e e' _ _
    · exact hrest
  · -- crosswise, the operand that is kept stands on the other side
    rw [← keepsAll_eq hb ha, ← keepsAll_eq ha hb]
    by_cases hab : op = .and ∧ keepsAll a b = true
    · have hba : ¬(op = .and ∧ keepsAll b a = true) := by
        rw [not_keepsAll_of_keepsAll hab.2]
        simp
      rw [if_pos hab, if_neg hba, if_pos hab]
      exact ha.wrap e e' _ _
    · rw [if_neg hab]
      by_cases hba : op = .and ∧ keepsAll b a = true
      · rw [if_pos hba, if_pos hba]
        exact hb.wrap e e' _ _
      · rw [if_neg hba, if_neg hba, if_neg hab]
        exact hrest

end

/-! ## Conditionals -/

section
variable {e e' : Expr Nat} (hty : e.ty = e'.ty) (hinfo : e.info = e'.info)
  {c a b c' a' b' : Canon}

theorem extremum?_eq (hc : Similar c c') (ha : Similar a a') (hb : Similar b b') :
    extremum? c a b = extremum? c' a' b' := by
  cases hc with
  | dyadic _ hx hy =>
    unfold extremum?
    simp only [hx.key_eq, hy.key_eq, ha.key_eq, hb.key_eq]
  | @swapped _ _ op _ _ _ _ _ hop =>
    -- operators whose operands may change places do not order anything
    cases op <;> first | rfl | cases hop
  | _ => rfl

theorem commutes_of_extremum? {op : DyadicOp} (h : extremum? c a b = some op) :
    op.commutes = true := by
  unfold extremum? at h
  split at h
  · grind [DyadicOp.commutes]
  · cases h

include hty hinfo

theorem Similar.selectNode (hc : Similar c c') (ha : Similar a a') (hb : Similar b b') :
    Similar (Canon.selectNode e c a b) (Canon.selectNode e' c' a' b') := by
  unfold Canon.selectNode
  rw [← extremum?_eq hc ha hb]
  cases hop : extremum? c a b with
  | none => exact .select (alike_ofExpr hty hinfo _ _) hc ha hb
  | some op =>
    exact .ordered (alike_ofExpr hty hinfo _ _) (commutes_of_extremum? hop) (.inl ⟨ha, hb⟩)

end

end Canon

/-! ## Chains -/

namespace Chain
open Canon

/-- The chains have similar terms in some order, all of them added, and one constant. -/
structure Similar (ch ch' : Chain) : Prop where
  terms : ∃ us, List.Forall₂ SimilarTerm ch.terms us ∧ us.Perm ch'.terms
  added : ∀ t ∈ ch.terms, t.1 = false
  added' : ∀ t ∈ ch'.terms, t.1 = false
  constant : ch.constant = ch'.constant

namespace Similar
variable {ch ch' : Chain}

theorem leaf {c c' : Canon} (h : Canon.Similar c c') :
    Similar (Chain.leaf false c) (Chain.leaf false c') := by
  unfold Chain.leaf
  rw [← h.constant]
  cases c.constant? with
  | some v => exact ⟨⟨[], .nil, .refl _⟩, by simp, by simp, rfl⟩
  | none => exact ⟨⟨[(false, c')], .cons ⟨rfl, h⟩ .nil, .refl _⟩, by simp, by simp, rfl⟩

theorem pass (h : Similar ch ch') (n n' : Nat) : Similar (ch.pass n) (ch'.pass n') :=
  ⟨h.terms, h.added, h.added', h.constant⟩

theorem join {a b a' b' : Chain} (ha : Similar a a') (hb : Similar b b') (n n' : Nat) :
    Similar (Chain.join n a b) (Chain.join n' a' b') := by
  obtain ⟨us, hus, hperm⟩ := ha.terms
  obtain ⟨vs, hvs, hperm'⟩ := hb.terms
  refine ⟨⟨us ++ vs, List.rel_append hus hvs, hperm.append hperm'⟩, ?_, ?_, ?_⟩
  · exact fun t ht => (List.mem_append.mp ht).elim (ha.added t) (hb.added t)
  · exact fun t ht => (List.mem_append.mp ht).elim (ha.added' t) (hb.added' t)
  · unfold Chain.join
    rw [ha.constant, hb.constant]

/-- Swapping the operands of an addition permutes the terms and leaves the constant alone. -/
theorem swap {a b : Chain} {n : Nat} (h : Similar ch (Chain.join n a b)) (n' : Nat) :
    Similar ch (Chain.join n' b a) := by
  have hperm : (a.terms ++ b.terms).Perm (b.terms ++ a.terms) := List.perm_append_comm
  obtain ⟨us, hus, hus'⟩ := h.terms
  refine ⟨⟨us, hus, hus'.trans hperm⟩, h.added,
    fun t ht => h.added' t (hperm.mem_iff.mpr ht), h.constant.trans ?_⟩
  unfold Chain.join
  rw [Int.add_comm]

theorem length_eq (h : Similar ch ch') : ch.terms.length = ch'.terms.length := by
  obtain ⟨us, hus, hperm⟩ := h.terms
  rw [hus.length_eq, hperm.length_eq]

theorem eq_singleton {ts : List (Bool × Canon)} (hlen : ts.length = 1)
    (hadded : ∀ t ∈ ts, t.1 = false) : ∃ c, ts = [(false, c)] := by
  obtain ⟨⟨negated, c⟩, rfl⟩ := List.length_eq_one_iff.mp hlen
  obtain rfl : negated = false := hadded _ List.mem_cons_self
  exact ⟨c, rfl⟩

/-- A single term is similar to a single term. -/
theorem single (h : Similar ch ch') {c c' : Canon} (hc : ch.terms = [(false, c)])
    (hc' : ch'.terms = [(false, c')]) : Canon.Similar c c' := by
  obtain ⟨us, hus, hperm⟩ := h.terms
  rw [hc'] at hperm
  rw [hc, List.perm_singleton.mp hperm] at hus
  cases hus with
  | cons hfirst _ => exact hfirst.2

theorem signature_eq {ts us : List (Bool × Canon)} (h : List.Forall₂ SimilarTerm ts us) :
    signature ts = signature us := by
  induction h with
  | nil => rfl
  | cons hst _ ih => rw [signature_cons, signature_cons, hst.1, hst.2.key_eq, ih]

/-- Terms that are similar in some order are similar in order of their keys. -/
theorem sorted (h : Similar ch ch') :
    ∃ us, SimilarTerms (Sorting.sort termLe ch.terms) us ∧
      us.Perm (Sorting.sort termLe ch'.terms) ∧
      termKeys us = termKeys (Sorting.sort termLe ch'.terms) := by
  obtain ⟨us, hus, hperm⟩ := h.terms
  obtain ⟨vs, hvs, hvs'⟩ := List.perm_comp_forall₂ (Sorting.sort_perm termLe ch.terms) hus
  have hperm' : vs.Perm (Sorting.sort termLe ch'.terms) :=
    (hvs'.trans hperm).trans (Sorting.sort_perm termLe ch'.terms).symm
  have hsame : signature vs = signature (Sorting.sort termLe ch'.terms) :=
    List.Perm.eq_of_pairwise (fun _ _ _ _ => before_antisymm)
      (signature_eq hvs ▸ pairwise_sort ch.terms) (pairwise_sort ch'.terms) (hperm'.map _)
  refine ⟨vs, similarTerms_iff.mpr hvs, hperm', ?_⟩
  rw [termKeys_eq, termKeys_eq, hsame]

/-- **Similar chains become similar forms.** -/
theorem toCanon {e e' : Expr Nat} (h : Similar ch ch') (hty : e.ty = e'.ty)
    (hinfo : e.info = e'.info) : Canon.Similar (ch.toCanon e) (ch'.toCanon e') := by
  have hk : ch.constantIn e = ch'.constantIn e' := by
    rw [constantIn, constantIn, hinfo, hty, h.constant]
  have hlen := h.length_eq
  have ho := fun l l' => alike_ofExpr hty hinfo l l'
  have hone : OneSided ch.terms := fun s hs t ht _ => (h.added s hs).trans (h.added t ht).symm
  have hone' : OneSided ch'.terms :=
    fun s hs t ht _ => (h.added' s hs).trans (h.added' t ht).symm
  have hsum := uncancelled_toCanon e hone
  have hsum' := uncancelled_toCanon e' hone'
  generalize ch.toCanon e = c at hsum
  generalize ch'.toCanon e' = c' at hsum'
  cases hsum with
  | const absorbed hterms =>
    rw [hterms] at hlen
    cases hsum' with
    | const =>
      rw [hk, hty]
      exact .const (ho _ _)
    | term _ _ hterms' => simp [hterms'] at hlen
    | sum _ _ hne => exact absurd (List.length_eq_zero_iff.mp hlen.symm) hne
  | term c others hterms hzero =>
    rw [hterms] at hlen
    cases hsum' with
    | const _ hterms' => simp [hterms'] at hlen
    | term c' others' hterms' => exact (h.single hterms hterms').wrap e e' _ _
    | sum _ _ _ hmore =>
      obtain ⟨c', hc'⟩ := eq_singleton hlen.symm h.added'
      exact absurd (hk ▸ hzero) (hmore c' hc')
  | sum absorbed adds hne hmore =>
    cases hsum' with
    | const _ hterms' =>
      rw [hterms'] at hlen
      exact absurd (List.length_eq_zero_iff.mp hlen) hne
    | term c' others' hterms' hzero =>
      rw [hterms'] at hlen
      obtain ⟨c, hc⟩ := eq_singleton hlen h.added
      exact absurd (hk.trans hzero) (hmore c hc)
    | sum =>
      obtain ⟨us, hus, hperm, hkeys⟩ := h.sorted
      rw [hk]
      exact .sum (ho _ _) hus hperm hkeys

end Similar
end Chain

/-! ## Expressions -/

/-- What is similar in reordered expressions: their forms, and the chains that they are part of. -/
structure Expr.SimilarForms (e e' : Expr Nat) : Prop where
  form : (Canon.ofExpr e).Similar (Canon.ofExpr e')
  chain : ∀ root, (Chain.ofExpr root false e).Similar (Chain.ofExpr root false e')

namespace Expr.SimilarForms

theorem cast {t t' : Nat} {ty : IntType} {a a' : Expr Nat} (ha : a.Reordered a')
    (h : a.SimilarForms a') : (Expr.cast t ty a).SimilarForms (.cast t' ty a') := by
  have he : (Expr.cast t ty a).Reordered (.cast t' ty a') := .cast ha
  have hform := h.form.castNode he.ty_eq he.info_eq ty
  refine ⟨?_, fun root => ?_⟩
  · rw [Canon.ofExpr, Canon.ofExpr]
    exact hform
  · rw [Chain.ofExpr, Chain.ofExpr, ← he.info_eq, ← ha.isAdditive_eq]
    split
    · exact (h.chain root).pass _ _
    · exact .leaf hform

theorem not {t t' : Nat} {a a' : Expr Nat} (ha : a.Reordered a') (h : a.SimilarForms a') :
    (Expr.unary t .not a).SimilarForms (.unary t' .not a') := by
  have he : (Expr.unary t .not a).Reordered (.unary t' .not a') := .unary ha
  have hform := h.form.notNode he.ty_eq he.info_eq
  refine ⟨?_, fun root => ?_⟩
  · rw [Canon.ofExpr, Canon.ofExpr]
    exact hform
  · rw [Chain.ofExpr, Chain.ofExpr]
    exact .leaf hform

theorem select {t t' : Nat} {c a b c' a' b' : Expr Nat}
    (he : (Expr.select t c a b).Reordered (.select t' c' a' b')) (hc : c.SimilarForms c')
    (ha : a.SimilarForms a') (hb : b.SimilarForms b') :
    (Expr.select t c a b).SimilarForms (.select t' c' a' b') := by
  have hform := hc.form.selectNode he.ty_eq he.info_eq ha.form hb.form
  refine ⟨?_, fun root => ?_⟩
  · rw [Canon.ofExpr, Canon.ofExpr]
    exact hform
  · rw [Chain.ofExpr, Chain.ofExpr]
    exact .leaf hform

/-- An operation other than an addition or subtraction. -/
theorem dyadic {t t' : Nat} {op : BinaryOp} {op' : DyadicOp} {a b a' b' : Expr Nat}
    (hop : DyadicOp.ofBinary? op = some op')
    (he : (Expr.binary t op a b).Reordered (.binary t' op a' b'))
    (h : Canon.SimilarOperands op' (Canon.ofExpr a) (Canon.ofExpr b) (Canon.ofExpr a')
      (Canon.ofExpr b')) :
    (Expr.binary t op a b).SimilarForms (.binary t' op a' b') := by
  have hform := Canon.Similar.dyadicNode he.ty_eq he.info_eq h
  refine ⟨?_, fun root => ?_⟩
  · rw [Canon.ofExpr, Canon.ofExpr, hop]
    exact hform
  · rw [Chain.ofExpr, Chain.ofExpr, hop]
    exact .leaf hform

/-- An addition, whose chain joins those of its operands. -/
theorem add {t t' : Nat} {a b a' b' : Expr Nat}
    (he : (Expr.binary t .add a b).Reordered (.binary t' .add a' b'))
    (h : ∀ root, (Chain.join t (Chain.ofExpr root false a) (Chain.ofExpr root false b)).Similar
      (Chain.join t' (Chain.ofExpr root false a') (Chain.ofExpr root false b'))) :
    (Expr.binary t .add a b).SimilarForms (.binary t' .add a' b') := by
  have hform : (Canon.ofExpr (.binary t .add a b)).Similar
      (Canon.ofExpr (.binary t' .add a' b')) := by
    rw [Canon.ofExpr, Canon.ofExpr, ← he.ty_eq]
    exact (h _).toCanon he.ty_eq he.info_eq
  refine ⟨hform, fun root => ?_⟩
  rw [Chain.ofExpr, Chain.ofExpr]
  rw [Canon.ofExpr, Canon.ofExpr] at hform
  simp only [DyadicOp.ofBinary?] at hform ⊢
  rw [← Chain.merges_eq he root]
  split
  · exact h root
  · exact .leaf hform

end Expr.SimilarForms

theorem BinaryOp.eq_add {op : BinaryOp} (h : DyadicOp.ofBinary? op = none) (hop : op ≠ .sub) :
    op = .add := by
  cases op <;> first | rfl | exact absurd rfl hop | cases h

/-- **Reordered expressions without a minus have similar forms.** -/
theorem Expr.Reordered.similarForms {e e' : Expr Nat} (h : e.Reordered e')
    (hminus : e.MinusFree) : e.SimilarForms e' := by
  induction h with
  | var => exact ⟨.var ⟨rfl, rfl, rfl⟩, fun _ => .leaf (.var ⟨rfl, rfl, rfl⟩)⟩
  | const => exact ⟨.const ⟨rfl, rfl, rfl⟩, fun _ => .leaf (.const ⟨rfl, rfl, rfl⟩)⟩
  | @unary t t' op a a' ha ih =>
    obtain ⟨hop, hminus⟩ := hminus
    cases op with
    | neg => exact absurd rfl hop
    | not => exact .not ha (ih hminus)
  | @binary t t' op a b a' b' ha hb iha ihb =>
    obtain ⟨hop, hminusa, hminusb⟩ := hminus
    have hfa := iha hminusa
    have hfb := ihb hminusb
    cases hdyadic : DyadicOp.ofBinary? op with
    | some op' => exact .dyadic hdyadic (.binary ha hb) (.inl ⟨hfa.form, hfb.form⟩)
    | none =>
      obtain rfl := BinaryOp.eq_add hdyadic hop
      exact .add (.binary ha hb) fun root => (hfa.chain root).join (hfb.chain root) t t'
  | @swapped t t' op a b a' b' hsymm ha hb iha ihb =>
    obtain ⟨hop, hminusa, hminusb⟩ := hminus
    have hfa := iha hminusa
    have hfb := ihb hminusb
    cases hdyadic : DyadicOp.ofBinary? op with
    | some op' =>
      have hcomm : op'.commutes = true := by
        cases op <;> cases hdyadic <;> first | rfl | cases hsymm
      exact .dyadic hdyadic (.swapped hsymm ha hb) (.inr ⟨hcomm, hfa.form, hfb.form⟩)
    | none =>
      obtain rfl := BinaryOp.eq_add hdyadic hop
      exact .add (.swapped hsymm ha hb) fun root =>
        ((hfa.chain root).join (hfb.chain root) t t').swap t'
  | cast ha ih => exact .cast ha (ih hminus)
  | select hc ha hb ihc iha ihb =>
    exact .select (.select hc ha hb) (ihc hminus.1) (iha hminus.2.1) (ihb hminus.2.2)

end CustomIsa
