import CustomIsa.Proofs.Canon.Source
/-! # Every source node is absorbed once

Each node of a canonical form lists the source nodes that went into it. Taken together these lists
hold every node of the expression once for each path to it: what folding, dropped casts and masks,
cancelled terms and swallowed comparisons make go away is listed at a node that stays
(`Canon.absorbed_ofExpr`). Only a sum that collapses into its single term needs more than counting:
its own number is left out of the list before it is added again, so it must not occur twice. It does
not in a numbered expression, where operands have smaller numbers (`Expr.Ordered`).

A node lists its own outermost source node, and a sum the additions of its constant, among the nodes
that went into it (`Canon.Listed`). -/
namespace CustomIsa

/-! ## Numbered expressions -/

namespace Expr

/-- The numbers of all nodes, once for each path from the topmost node. -/
def tags (e : Expr Nat) : List Nat := e.preorder.map tag

/-- Every node has a greater number than its operands. -/
def Ordered (e : Expr Nat) : Prop := ∀ m ∈ e.preorder, ∀ a ∈ m.children, a.tag < m.tag

theorem Ordered.of_mem {e s : Expr Nat} (h : e.Ordered) (hs : s ∈ e.preorder) : s.Ordered :=
  fun m hm => h m (mem_preorder_trans hs hm)

theorem Ordered.of_child {e a : Expr Nat} (h : e.Ordered) (ha : a ∈ e.children) : a.Ordered :=
  h.of_mem (mem_preorder_of_child ha a.mem_preorder_self)

/-- An ordered expression is made of ordered operands with smaller numbers. -/
theorem ordered_of_children {e : Expr Nat}
    (h : ∀ a ∈ e.children, a.tag < e.tag ∧ a.Ordered) : e.Ordered := by
  intro m hm b hb
  rcases mem_preorder hm with rfl | ⟨a, ha, hma⟩
  · exact (h b hb).1
  · exact (h a ha).2 m hma b hb

theorem Ordered.tag_le {e s : Expr Nat} (h : e.Ordered) (hs : s ∈ e.preorder) :
    s.tag ≤ e.tag := by
  induction hn : e.size using Nat.strongRecOn generalizing e with
  | ind n ih =>
    subst hn
    rcases mem_preorder hs with rfl | ⟨a, ha, hsa⟩
    · exact Nat.le_refl _
    · have hlt := h e e.mem_preorder_self a ha
      have hle := ih _ (size_of_child ha) (h.of_child ha) hsa rfl
      omega

theorem Ordered.tag_lt {e s : Expr Nat} (h : e.Ordered) (hs : s.Under e) : s.tag < e.tag := by
  rcases mem_preorder hs.mem with rfl | ⟨a, ha, hsa⟩
  · exact absurd hs.size (Nat.lt_irrefl _)
  · exact Nat.lt_of_le_of_lt ((h.of_child ha).tag_le hsa) (h e e.mem_preorder_self a ha)

/-- The number of an expression is not that of a node below it. -/
theorem Ordered.tag_not_mem {e a : Expr Nat} (h : e.Ordered) (ha : a ∈ e.children) :
    e.tag ∉ a.tags := by
  intro hmem
  obtain ⟨s, hs, htag⟩ := List.mem_map.mp hmem
  have hlt := h.tag_lt (under_of_child ha hs)
  omega

/-- Numbering gives the topmost node the last number, and orders the expression. -/
theorem ordered_number {α : Type} (e : Expr α) (next : Nat) :
    (e.number next).1.Ordered ∧ (e.number next).1.tag + 1 = (e.number next).2 ∧
      next ≤ (e.number next).1.tag := by
  induction e generalizing next with
  | var | const => exact ⟨ordered_of_children (by simp [number, children]), rfl, Nat.le_refl _⟩
  | unary _ _ a ih | cast _ _ a ih =>
    obtain ⟨hord, htag, hle⟩ := ih next
    have hlt : (a.number next).1.tag < (a.number next).2 := by omega
    refine ⟨ordered_of_children fun x hx => ?_, rfl, Nat.le_trans hle (Nat.le_of_lt hlt)⟩
    rw [List.mem_singleton.mp hx]
    exact ⟨hlt, hord⟩
  | binary _ _ a b iha ihb =>
    obtain ⟨horda, htaga, hlea⟩ := iha next
    obtain ⟨hordb, htagb, hleb⟩ := ihb (a.number next).2
    have hlt : (b.number (a.number next).2).1.tag < (b.number (a.number next).2).2 := by omega
    have hlta : (a.number next).1.tag < (b.number (a.number next).2).2 := by omega
    refine ⟨ordered_of_children fun x hx => ?_, rfl,
      Nat.le_trans hlea (Nat.le_of_lt hlta)⟩
    rcases List.mem_pair.mp hx with rfl | rfl
    · exact ⟨hlta, horda⟩
    · exact ⟨hlt, hordb⟩
  | select _ c a b ihc iha ihb =>
    obtain ⟨hordc, htagc, hlec⟩ := ihc next
    obtain ⟨horda, htaga, hlea⟩ := iha (c.number next).2
    obtain ⟨hordb, htagb, hleb⟩ := ihb (a.number (c.number next).2).2
    refine ⟨ordered_of_children fun x hx => ?_, rfl, ?_⟩
    · rcases List.mem_cons.mp hx with rfl | hx
      · refine ⟨?_, hordc⟩
        show _ < (b.number (a.number (c.number next).2).2).2
        omega
      · rcases List.mem_pair.mp hx with rfl | rfl
        · refine ⟨?_, horda⟩
          show _ < (b.number (a.number (c.number next).2).2).2
          omega
        · refine ⟨?_, hordb⟩
          show _ < (b.number (a.number (c.number next).2).2).2
          omega
    · show next ≤ (b.number (a.number (c.number next).2).2).2
      omega

theorem mem_preorder_of_mem_postorder {α : Type} {e s : Expr α} (h : s ∈ e.postorder) :
    s ∈ e.preorder := by
  induction e with
  | var | const => exact h
  | unary | cast | binary | select =>
    simp only [postorder, preorder, List.mem_append, List.mem_cons, List.not_mem_nil,
      or_false] at h ⊢
    grind

end Expr

namespace Draft

/-- The node of a draft has the next number, and the operands are nodes that are there already. -/
theorem build_eq_some {nodes : List (Expr Nat)} {d : Draft} {e : Expr Nat}
    (h : d.build? nodes = some e) : e.tag = nodes.length ∧ ∀ a ∈ e.children, a ∈ nodes := by
  cases d with
  | var | const =>
    obtain rfl := Option.some.inj h
    exact ⟨rfl, by simp [Expr.children]⟩
  | unary op a | cast ty a =>
    obtain ⟨na, ha, h⟩ := Option.bind_eq_some_iff.mp h
    obtain rfl := Option.some.inj h
    exact ⟨rfl, by simpa [Expr.children] using List.mem_of_getElem? ha⟩
  | binary op a b =>
    obtain ⟨na, ha, h⟩ := Option.bind_eq_some_iff.mp h
    obtain ⟨nb, hb, h⟩ := Option.bind_eq_some_iff.mp h
    obtain rfl := Option.some.inj h
    exact ⟨rfl, by simp [Expr.children, List.mem_of_getElem? ha, List.mem_of_getElem? hb]⟩
  | select c a b =>
    obtain ⟨nc, hc, h⟩ := Option.bind_eq_some_iff.mp h
    obtain ⟨na, ha, h⟩ := Option.bind_eq_some_iff.mp h
    obtain ⟨nb, hb, h⟩ := Option.bind_eq_some_iff.mp h
    obtain rfl := Option.some.inj h
    exact ⟨rfl, by
      simp [Expr.children, List.mem_of_getElem? hc, List.mem_of_getElem? ha,
        List.mem_of_getElem? hb]⟩

theorem ordered_buildAll {nodes out : List (Expr Nat)} {ds : List Draft}
    (hnodes : ∀ n ∈ nodes, n.tag < nodes.length ∧ n.Ordered)
    (h : buildAll? nodes ds = some out) : ∀ n ∈ out, n.Ordered := by
  induction ds generalizing nodes with
  | nil =>
    obtain rfl := Option.some.inj h
    exact fun n hn => (hnodes n hn).2
  | cons d ds ih =>
    obtain ⟨e, he, hrest⟩ := Option.bind_eq_some_iff.mp h
    obtain ⟨htag, hchildren⟩ := build_eq_some he
    refine ih (fun n hn => ?_) hrest
    rw [List.length_append, List.length_singleton]
    rcases List.mem_append.mp hn with hn | hn
    · exact ⟨Nat.lt_succ_of_lt (hnodes n hn).1, (hnodes n hn).2⟩
    · rw [List.mem_singleton.mp hn, htag]
      refine ⟨Nat.lt_succ_self _, Expr.ordered_of_children fun a ha => ?_⟩
      rw [htag]
      exact hnodes a (hchildren a ha)

end Draft

/-- The tree was put together from drafts, or read from text. -/
inductive ExprTree.Assembled (t : ExprTree) : Prop where
  | built (drafts : List Draft) (nodes : List (Expr Nat)) (root : Nat)
    (nodes_eq : Draft.buildAll? [] drafts = some nodes) (tree_eq : ofNodes nodes root = .ok t)
  | read (vars : Typing) (text : String) (tree_eq : ofText vars text = .ok t)

theorem ExprTree.Assembled.ordered {t : ExprTree} (h : t.Assembled) {n : Expr Nat}
    (hn : n ∈ t.nodes) : n.Ordered := by
  cases h with
  | built drafts nodes root hnodes htree =>
    rw [ofNodes] at htree
    split at htree
    · obtain rfl := Except.ok.inj htree
      exact Draft.ordered_buildAll (by simp) hnodes n hn
    · cases htree
  | read vars text htree =>
    obtain ⟨e, he, rfl⟩ := map_eq_ok htree
    exact (Expr.ordered_number e 0).1.of_mem (Expr.mem_preorder_of_mem_postorder hn)

/-! ## What a form absorbs -/

namespace Canon

mutual

/-- All that went into a form is what went into its nodes. -/
theorem allAbsorbed_eq_flatMap : ∀ c : Canon,
    c.allAbsorbed = c.preorder.flatMap (·.origin.absorbed)
  | .var _ _ | .const _ _ => by simp [allAbsorbed, preorder, origin]
  | .monadic _ _ a => by simp [allAbsorbed, preorder, origin, allAbsorbed_eq_flatMap a]
  | .dyadic _ _ a b => by
    simp [allAbsorbed, preorder, origin, allAbsorbed_eq_flatMap a, allAbsorbed_eq_flatMap b]
  | .select _ c a b => by
    simp [allAbsorbed, preorder, origin, allAbsorbed_eq_flatMap c, allAbsorbed_eq_flatMap a,
      allAbsorbed_eq_flatMap b]
  | .sum _ terms _ _ => by
    simp [allAbsorbed, preorder, origin, absorbedOfTerms_eq_flatMap terms]

theorem absorbedOfTerms_eq_flatMap : ∀ ts : List (Bool × Canon),
    absorbedOfTerms ts = (preorderOfTerms ts).flatMap (·.origin.absorbed)
  | [] => by simp [absorbedOfTerms, preorderOfTerms]
  | (_, c) :: ts => by
    simp [absorbedOfTerms, preorderOfTerms, allAbsorbed_eq_flatMap c,
      absorbedOfTerms_eq_flatMap ts]

end

theorem allAbsorbed_of_constant {c : Canon} (h : c.constant?.isSome = true) :
    c.allAbsorbed = c.origin.absorbed := by
  cases c with
  | const => rw [allAbsorbed, origin]
  | var | monadic | dyadic | select | sum => cases h

theorem allAbsorbed_wrap (c : Canon) (e : Expr Nat) (others : List Nat) :
    (c.wrap e others).allAbsorbed.Perm (e.tag :: (others ++ c.allAbsorbed)) := by
  rw [List.perm_iff_count]
  intro n
  cases c <;>
    simp only [wrap, withOrigin, origin, Origin.wrap, allAbsorbed, List.count_append,
      List.count_cons] <;> omega

theorem allAbsorbed_ordered (a b : Canon) :
    ((ordered a b).1.allAbsorbed ++ (ordered a b).2.allAbsorbed).Perm
      (a.allAbsorbed ++ b.allAbsorbed) := by
  rcases ordered_eq a b with h | h <;> rw [h]
  exact List.perm_append_comm

/-! ## One node -/

theorem absorbed_castNode (e : Expr Nat) (ty : IntType) (c : Canon) :
    (castNode e ty c).allAbsorbed.Perm (e.tag :: c.allAbsorbed) := by
  rw [castNode]
  split
  · exact allAbsorbed_wrap c e []
  · cases hv : c.constant? with
    | none => exact .refl _
    | some v =>
      rw [allAbsorbed_of_constant (c := c) (by rw [hv]; rfl)]
      exact List.perm_append_singleton _ _

theorem absorbed_notNode (e : Expr Nat) (c : Canon) :
    (notNode e c).allAbsorbed.Perm (e.tag :: c.allAbsorbed) := by
  rw [notNode]
  cases hv : c.constant? with
  | none => exact .refl _
  | some v =>
    rw [allAbsorbed_of_constant (c := c) (by rw [hv]; rfl)]
    exact List.perm_append_singleton _ _

theorem absorbed_dyadicNode (e : Expr Nat) (op : DyadicOp) (a b : Canon) :
    (dyadicNode e op a b).allAbsorbed.Perm (e.tag :: (a.allAbsorbed ++ b.allAbsorbed)) := by
  -- a mask is a constant, so all that it absorbed stands in its own list
  have hmask : ∀ {value mask : Canon}, keepsAll value mask = true →
      mask.origin.absorbed = mask.allAbsorbed := by
    intro value mask h
    rw [keepsAll] at h
    split at h
    · rename_i bits hbits
      obtain ⟨v, hv, -⟩ := Option.bind_eq_some_iff.mp hbits
      exact (allAbsorbed_of_constant (by rw [hv]; rfl)).symm
    · cases h
  rw [dyadicNode]
  cases hfold : folded? e op a b with
  | some c =>
    obtain ⟨va, ha, hfold⟩ := Option.bind_eq_some_iff.mp hfold
    obtain ⟨vb, hb, hfold⟩ := Option.bind_eq_some_iff.mp hfold
    obtain ⟨v, hv, hfold⟩ := Option.bind_eq_some_iff.mp hfold
    obtain rfl := Option.some.inj hfold
    rw [allAbsorbed_of_constant (c := a) (by rw [ha]; rfl),
      allAbsorbed_of_constant (c := b) (by rw [hb]; rfl)]
    exact .refl _
  | none =>
    simp only
    split
    · rename_i h
      rw [hmask h.2]
      exact (allAbsorbed_wrap a e _).trans (List.perm_append_comm.cons _)
    split
    · rename_i h
      rw [hmask h.2]
      exact allAbsorbed_wrap b e _
    split
    · exact (allAbsorbed_ordered a b).cons _
    · exact .refl _

theorem absorbed_selectNode (e : Expr Nat) (c a b : Canon) :
    (selectNode e c a b).allAbsorbed.Perm
      (e.tag :: (c.allAbsorbed ++ a.allAbsorbed ++ b.allAbsorbed)) := by
  rw [selectNode]
  cases extremum? c a b with
  | none => exact .refl _
  | some op =>
    -- the comparison went away, with all that it had absorbed
    have hord := (allAbsorbed_ordered a b).append_left c.allAbsorbed
    simp only [allAbsorbed, Origin.ofExpr, List.cons_append, List.append_assoc]
    exact hord.cons _

/-! ## Chains -/

end Canon

namespace Chain
open Canon

/-- All that went into a chain, its terms included. -/
def allAbsorbed (ch : Chain) : List Nat := ch.absorbed ++ absorbedOfTerms ch.terms

theorem absorbedOfTerms_append (ts us : List (Bool × Canon)) :
    absorbedOfTerms (ts ++ us) = absorbedOfTerms ts ++ absorbedOfTerms us := by
  induction ts with
  | nil => rfl
  | cons t ts ih => rw [List.cons_append, absorbedOfTerms, absorbedOfTerms, ih, List.append_assoc]

theorem absorbedOfTerms_perm {ts us : List (Bool × Canon)} (h : ts.Perm us) :
    (absorbedOfTerms ts).Perm (absorbedOfTerms us) := by
  induction h with
  | nil => exact .refl _
  | cons t _ ih =>
    rw [absorbedOfTerms, absorbedOfTerms]
    exact ih.append_left _
  | swap t u ts =>
    simp only [absorbedOfTerms, ← List.append_assoc]
    exact List.perm_append_comm.append_right _
  | trans _ _ ih ih' => exact ih.trans ih'

theorem absorbed_leaf (negated : Bool) (c : Canon) :
    (leaf negated c).allAbsorbed = c.allAbsorbed := by
  rw [leaf]
  cases hv : c.constant? with
  | some v =>
    rw [allAbsorbed_of_constant (c := c) (by rw [hv]; rfl)]
    simp [allAbsorbed, absorbedOfTerms]
  | none => simp [allAbsorbed, absorbedOfTerms]

theorem absorbed_join (number : Nat) (a b : Chain) :
    (join number a b).allAbsorbed.Perm (number :: (a.allAbsorbed ++ b.allAbsorbed)) := by
  rw [List.perm_iff_count]
  intro n
  simp only [join, allAbsorbed, absorbedOfTerms_append, List.count_append, List.count_cons]
  omega

/-- What cancelled and what is left absorbed all that the terms had absorbed. -/
theorem absorbed_cancel (kept ts : List (Bool × Canon)) :
    ((cancel kept ts).2 ++ absorbedOfTerms (cancel kept ts).1).Perm
      (absorbedOfTerms kept ++ absorbedOfTerms ts) := by
  induction ts generalizing kept with
  | nil => simp [cancel, absorbedOfTerms]
  | cons t ts ih =>
    rw [cancel]
    split
    · rename_i other rest hfind
      have hkept := absorbedOfTerms_perm (takeOpposite_eq_some hfind).2
      have hrest := ih rest
      rw [List.perm_iff_count] at hkept hrest ⊢
      intro n
      have hkept := hkept n
      have hrest := hrest n
      simp only [absorbedOfTerms, List.count_append] at hkept hrest ⊢
      omega
    · have hmove := ih (kept ++ [t])
      rw [absorbedOfTerms_append] at hmove
      simpa [absorbedOfTerms] using hmove

/-- **A sum absorbs what its chain has absorbed**, if its own number stands there once. -/
theorem absorbed_toCanon {e : Expr Nat} {ch : Chain} {rest : List Nat}
    (hhead : ch.absorbed = e.tag :: rest) (honce : e.tag ∉ rest ++ absorbedOfTerms ch.terms) :
    (ch.toCanon e).allAbsorbed.Perm ch.allAbsorbed := by
  have hcancel := (absorbed_cancel [] (Sorting.sort termLe ch.terms)).trans
    (absorbedOfTerms_perm (Sorting.sort_perm termLe ch.terms))
  rw [toCanon]
  generalize cancel [] (Sorting.sort termLe ch.terms) = result at hcancel ⊢
  obtain ⟨terms, gone⟩ := result
  generalize (if e.info.overflow = true then e.ty.reduce ch.constant else ch.constant) = k
  have hall : (ch.absorbed ++ gone ++ absorbedOfTerms terms).Perm ch.allAbsorbed := by
    rw [List.append_assoc]
    exact hcancel.append_left _
  cases terms with
  | nil => simpa [Canon.allAbsorbed, Origin.ofExpr, absorbedOfTerms] using hall
  | cons t more =>
    obtain ⟨negated, c⟩ := t
    simp only
    split
    · rename_i h
      obtain rfl : more = [] := by simpa using h.2.1
      -- the number of the sum goes out of the list once, and comes in once with the wrapping
      have hgone : e.tag ∉ rest ++ gone := by
        intro hmem
        rcases List.mem_append.mp hmem with hmem | hmem
        · exact honce (List.mem_append_left _ hmem)
        · exact honce (List.mem_append_right _ (hcancel.mem_iff.mp (List.mem_append_left _ hmem)))
      have hfilter : (ch.absorbed ++ gone).filter (· ≠ e.tag) = rest ++ gone := by
        rw [hhead, List.cons_append, List.filter_cons_of_neg (by simp), List.filter_eq_self]
        intro n hn
        simpa using fun heq : n = e.tag => hgone (heq ▸ hn)
      rw [hfilter]
      refine (allAbsorbed_wrap c e _).trans (.trans ?_ hall)
      rw [hhead]
      simp [absorbedOfTerms]
    · split <;> exact hall

end Chain

/-! ## Expressions -/

namespace Canon

/-- The form absorbed the nodes of its expression. -/
def Complete (e : Expr Nat) : Prop := (ofExpr e).allAbsorbed.Perm e.tags

end Canon

/-- A chain absorbed the nodes of its expression, if the forms of its operands did. -/
theorem Chain.absorbed_ofExpr (root : IntType) (negated : Bool) {e : Expr Nat}
    (hbelow : ∀ s ∈ e.preorder, ¬(s.isAdditive = true ∧ merges root s = true) →
      Canon.Complete s) :
    (Chain.ofExpr root negated e).allAbsorbed.Perm e.tags := by
  revert hbelow
  refine gather_induct root (P := fun _ e ch => (∀ s ∈ e.preorder,
    ¬(s.isAdditive = true ∧ merges root s = true) → Canon.Complete s) →
      ch.allAbsorbed.Perm e.tags) ?_ ?_ ?_ ?_ negated e
  · intro negated e hleaf _ hbelow
    rw [absorbed_leaf]
    exact hbelow e e.mem_preorder_self hleaf
  · intro negated tag ty a _ _ ih hbelow
    exact (ih fun s hs => hbelow s (List.mem_cons_of_mem _ hs)).cons tag
  · intro negated tag a _ ih hbelow
    exact (ih fun s hs => hbelow s (List.mem_cons_of_mem _ hs)).cons tag
  · intro negated tag op a b _ _ iha ihb hbelow
    have ha := iha fun s hs => hbelow s (Expr.mem_preorder_of_child (by simp [Expr.children]) hs)
    have hb := ihb fun s hs => hbelow s (Expr.mem_preorder_of_child (by simp [Expr.children]) hs)
    refine (absorbed_join _ _ _).trans ?_
    simpa [Expr.tags, Expr.preorder, Expr.tag] using (ha.append hb).cons tag

namespace Canon

/-- **A canonical form absorbs every node of its expression once for each path to it.** -/
theorem absorbed_ofExpr {e : Expr Nat} (hord : e.Ordered) : Complete e := by
  induction hn : e.size using Nat.strongRecOn generalizing e with
  | ind n ih =>
    subst hn
    have hchild : ∀ a ∈ e.children, Complete a :=
      fun a ha => ih _ (Expr.size_of_child ha) (hord.of_child ha) rfl
    have hchain : ∀ a ∈ e.children, ∀ root negated,
        (Chain.ofExpr root negated a).allAbsorbed.Perm a.tags := by
      intro a ha root negated
      refine Chain.absorbed_ofExpr root negated fun s hs _ => ?_
      have hunder := Expr.under_of_child ha hs
      exact ih _ hunder.size (hord.of_mem hunder.mem) rfl
    cases e with
    | var | const => exact .refl _
    | cast tag ty a =>
      rw [Complete, ofExpr]
      exact (absorbed_castNode _ _ _).trans ((hchild a (by simp [Expr.children])).cons tag)
    | unary tag op a =>
      cases op with
      | not =>
        rw [Complete, ofExpr]
        exact (absorbed_notNode _ _).trans ((hchild a (by simp [Expr.children])).cons tag)
      | neg =>
        have ha := hchain a (by simp [Expr.children]) (Expr.unary tag .neg a).ty true
        rw [Complete, ofExpr]
        refine (Chain.absorbed_toCanon rfl fun hmem => ?_).trans (ha.cons tag)
        exact hord.tag_not_mem (by simp [Expr.children]) (ha.mem_iff.mp hmem)
    | binary tag op a b =>
      rw [Complete, ofExpr]
      cases hop : DyadicOp.ofBinary? op with
      | some op' =>
        have hab := (hchild a (by simp [Expr.children])).append (hchild b (by simp [Expr.children]))
        refine (absorbed_dyadicNode _ _ _ _).trans ?_
        simpa [Expr.tags, Expr.preorder, Expr.tag] using hab.cons tag
      | none =>
        have ha := hchain a (by simp [Expr.children]) (Expr.binary tag op a b).ty false
        have hb := hchain b (by simp [Expr.children]) (Expr.binary tag op a b).ty op.subtracts
        have hjoin := (Chain.absorbed_join tag _ _).trans ((ha.append hb).cons tag)
        refine (Chain.absorbed_toCanon rfl fun hmem => ?_).trans ?_
        · have hin := (List.Perm.cons_inv hjoin).mem_iff.mp hmem
          rcases List.mem_append.mp hin with hin | hin
          · exact hord.tag_not_mem (by simp [Expr.children]) hin
          · exact hord.tag_not_mem (by simp [Expr.children]) hin
        · simpa [Expr.tags, Expr.preorder, Expr.tag] using hjoin
    | select tag c a b =>
      have hc := hchild c (by simp [Expr.children])
      have ha := hchild a (by simp [Expr.children])
      have hb := hchild b (by simp [Expr.children])
      rw [Complete, ofExpr]
      refine (absorbed_selectNode _ _ _ _).trans ?_
      simpa [Expr.tags, Expr.preorder, Expr.tag] using (hc.append (ha.append hb)).cons tag

/-! ## What a node lists -/

/-- A node lists its source node, and a sum lists the nodes that add a constant to it. -/
structure Listed (c : Canon) : Prop where
  source : c.source ∈ c.origin.absorbed
  adds : ∀ o terms k adds, c = .sum o terms k adds → adds ⊆ o.absorbed

theorem Listed.wrap {c : Canon} (h : c.Listed) (e : Expr Nat) (others : List Nat) :
    (c.wrap e others).Listed := by
  refine ⟨?_, fun o terms k adds heq => ?_⟩
  · rw [Canon.source, origin_wrap]
    exact List.mem_append_right _ List.mem_cons_self
  · cases c with
    | sum o' terms' k' adds' =>
      obtain ⟨rfl, rfl, rfl, rfl⟩ := sum.inj heq
      exact fun n hn => List.mem_append_left _ (h.adds _ _ _ _ rfl hn)
    | var | const | monadic | dyadic | select => cases heq

theorem listed_castNode {c : Canon} (h : c.Listed) (e : Expr Nat) (ty : IntType) :
    (castNode e ty c).Listed := by
  rw [castNode]
  split
  · exact h.wrap e []
  split
  · exact ⟨List.mem_append_right _ List.mem_cons_self, by simp⟩
  · exact ⟨List.mem_cons_self, by simp⟩

theorem listed_notNode (e : Expr Nat) (c : Canon) : (notNode e c).Listed := by
  rw [notNode]
  split
  · exact ⟨List.mem_append_right _ List.mem_cons_self, by simp⟩
  · exact ⟨List.mem_cons_self, by simp⟩

theorem listed_dyadicNode {a b : Canon} (ha : a.Listed) (hb : b.Listed) (e : Expr Nat)
    (op : DyadicOp) : (dyadicNode e op a b).Listed := by
  rw [dyadicNode]
  cases hfold : folded? e op a b with
  | some c =>
    obtain ⟨va, -, hfold⟩ := Option.bind_eq_some_iff.mp hfold
    obtain ⟨vb, -, hfold⟩ := Option.bind_eq_some_iff.mp hfold
    obtain ⟨v, -, hfold⟩ := Option.bind_eq_some_iff.mp hfold
    obtain rfl := Option.some.inj hfold
    exact ⟨List.mem_cons_self, by simp⟩
  | none =>
    simp only
    split
    · exact ha.wrap e _
    split
    · exact hb.wrap e _
    split <;> exact ⟨List.mem_cons_self, by simp⟩

theorem listed_selectNode (e : Expr Nat) (c a b : Canon) : (selectNode e c a b).Listed := by
  rw [selectNode]
  split <;> exact ⟨List.mem_cons_self, by simp⟩

end Canon

namespace Chain
open Canon

theorem constAdds_join {a b : Chain} (ha : a.constAdds ⊆ a.absorbed)
    (hb : b.constAdds ⊆ b.absorbed) (number : Nat) :
    (join number a b).constAdds ⊆ (join number a b).absorbed := by
  intro n hn
  rcases List.mem_append.mp hn with hn | hn
  · rcases List.mem_append.mp hn with hn | hn
    · exact List.mem_cons_of_mem _ (List.mem_append_left _ (ha hn))
    · exact List.mem_cons_of_mem _ (List.mem_append_right _ (hb hn))
  · split at hn
    · rw [List.mem_singleton.mp hn]
      exact List.mem_cons_self
    · cases hn

/-- What adds a constant to a chain went into it. -/
theorem constAdds_ofExpr (root : IntType) (negated : Bool) (e : Expr Nat) :
    (Chain.ofExpr root negated e).constAdds ⊆ (Chain.ofExpr root negated e).absorbed := by
  refine gather_induct root (P := fun _ _ ch => ch.constAdds ⊆ ch.absorbed) ?_ ?_ ?_ ?_ negated e
  · intro negated e _ _
    rw [leaf]
    split <;> exact List.nil_subset _
  · intro _ _ _ _ _ _ ih
    exact List.subset_cons_of_subset _ ih
  · intro _ _ _ _ ih
    exact List.subset_cons_of_subset _ ih
  · intro _ tag _ _ _ _ _ iha ihb
    exact constAdds_join iha ihb tag

theorem listed_toCanon {e : Expr Nat} {ch : Chain} (hterms : ∀ t ∈ ch.left, t.2.Listed)
    (htag : e.tag ∈ ch.absorbed) (hadds : ch.constAdds ⊆ ch.absorbed) :
    (ch.toCanon e).Listed := by
  rw [left] at hterms
  rw [toCanon]
  generalize cancel [] (Sorting.sort termLe ch.terms) = result at hterms ⊢
  obtain ⟨terms, gone⟩ := result
  generalize (if e.info.overflow = true then e.ty.reduce ch.constant else ch.constant) = k
  cases terms with
  | nil => exact ⟨List.mem_append_left _ htag, by simp⟩
  | cons t more =>
    simp only
    split
    · exact (hterms t List.mem_cons_self).wrap e _
    · refine ⟨?_, fun o terms k adds heq => ?_⟩
      · split <;> exact List.mem_append_left _ htag
      · obtain ⟨horigin, -, -, rfl⟩ := sum.inj heq
        rw [← horigin]
        split <;> exact fun n hn => List.mem_append_left _ (hadds hn)

end Chain

/-- **Every node of a canonical form lists its source node, and the nodes that add a constant.** -/
theorem Canon.listed_ofExpr (e : Expr Nat) : (ofExpr e).Listed := by
  induction hn : e.size using Nat.strongRecOn generalizing e with
  | ind n ih =>
    subst hn
    have hchild : ∀ a ∈ e.children, (ofExpr a).Listed :=
      fun a ha => ih _ (Expr.size_of_child ha) a rfl
    have hterms : ∀ t ∈ (Chain.ofSum e).left, t.2.Listed := by
      intro t ht
      obtain ⟨-, s, hs, heq⟩ := Chain.term_left ht
      rw [heq]
      exact ih _ hs.size s rfl
    cases e with
    | var | const => exact ⟨List.mem_cons_self, by simp [ofExpr]⟩
    | cast tag ty a =>
      rw [ofExpr]
      exact listed_castNode (hchild a (by simp [Expr.children])) _ _
    | unary tag op a =>
      cases op with
      | not =>
        rw [ofExpr]
        exact listed_notNode _ _
      | neg =>
        rw [ofExpr]
        exact Chain.listed_toCanon hterms List.mem_cons_self
          (List.subset_cons_of_subset _ (Chain.constAdds_ofExpr _ _ _))
    | binary tag op a b =>
      rw [ofExpr]
      cases DyadicOp.ofBinary? op with
      | some op' =>
        exact listed_dyadicNode (hchild a (by simp [Expr.children]))
          (hchild b (by simp [Expr.children])) _ _
      | none =>
        exact Chain.listed_toCanon hterms List.mem_cons_self
          (Chain.constAdds_join (Chain.constAdds_ofExpr _ _ _) (Chain.constAdds_ofExpr _ _ _) _)
    | select tag c a b =>
      rw [ofExpr]
      exact listed_selectNode _ _ _ _

namespace ExprTree

/-- **No source node is lost or counted twice.** The lists of absorbed nodes in the canonical form
of a node hold, all together, each node below it once for each path to it; nodes may be shared. -/
theorem absorbed_once_per_path {t : ExprTree} (h : t.Assembled) {n : Expr Nat}
    (hn : n ∈ t.nodes) :
    ((Canon.ofExpr n).preorder.flatMap (·.origin.absorbed)).Perm (n.preorder.map Expr.tag) := by
  have hcomplete := Canon.absorbed_ofExpr (h.ordered hn)
  rwa [Canon.Complete, Canon.allAbsorbed_eq_flatMap] at hcomplete

/-- The maximum of `x * x + x - x * x` and `y`, where the difference is shared by the comparison and
an arm, and the product by both sides of the difference. -/
def sharedMaximum : List Draft :=
  [.var "x" .u32, .binary .mul 0 0, .binary .add 1 0, .binary .sub 2 1, .var "y" .u32,
    .binary .gt 3 4, .select 5 3 4]

/-- Three canonical nodes absorb the maximum: itself with the comparison, the difference with both
products, and `y`. -/
theorem absorbed_once_per_path_shared :
    ∃ nodes t n, Draft.buildAll? [] sharedMaximum = some nodes ∧ ofNodes nodes 6 = .ok t ∧
      n ∈ t.nodes ∧
      (Canon.ofExpr n).preorder.map (·.origin.absorbed.length) = [12, 9, 1] ∧
      n.preorder.length = 22 ∧
      ((Canon.ofExpr n).preorder.flatMap (·.origin.absorbed)).Perm (n.preorder.map Expr.tag) := by
  have hrun : ((Draft.buildAll? [] sharedMaximum).any fun nodes =>
      (ofNodes nodes 6).toOption.any fun t => t.nodes.any fun n =>
        (Canon.ofExpr n).preorder.map (·.origin.absorbed.length) = [12, 9, 1] &&
          n.preorder.length = 22) = true := by
    decide +kernel
  obtain ⟨nodes, hnodes, hany⟩ := Option.any_eq_true _ _ |>.mp hrun
  obtain ⟨t, htree, hany⟩ := Option.any_eq_true _ _ |>.mp hany
  obtain ⟨n, hn, hcase⟩ := List.any_eq_true.mp hany
  rw [Bool.and_eq_true, decide_eq_true_iff, decide_eq_true_iff] at hcase
  have htree := eq_ok_of_toOption htree
  exact ⟨nodes, t, n, hnodes, htree, hn, hcase.1, hcase.2,
    absorbed_once_per_path (.built _ _ _ hnodes htree) hn⟩

end ExprTree
end CustomIsa
