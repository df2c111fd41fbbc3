import CustomIsa.Proofs.Canon.Absorbed
/-! # Nodes and their numbers

A tree lists its nodes by number, with the operands of every node among them (`ExprTree.Indexed`),
so the number of a node below the root finds that node. In a tree that was read from text no node is
shared: every number occurs once below the root (`ExprTree.nodup_tags`). -/
namespace CustomIsa

namespace Expr
variable {α : Type}

/-- Both orders list the same nodes. -/
theorem preorder_perm_postorder (e : Expr α) : e.preorder.Perm e.postorder := by
  induction e with
  | var | const => exact .refl _
  | unary _ _ _ ih | cast _ _ _ ih =>
    exact (ih.cons _).trans (List.perm_append_singleton _ _).symm
  | binary _ _ _ _ iha ihb =>
    exact ((iha.append ihb).cons _).trans (List.perm_append_singleton _ _).symm
  | select _ _ _ _ ihc iha ihb =>
    exact (((ihc.append iha).append ihb).cons _).trans (List.perm_append_singleton _ _).symm

/-- Numbering counts on from the first number, operands first. -/
theorem tags_number (e : Expr α) (next : Nat) :
    (e.number next).1.postorder.map tag = List.range' next e.size ∧
      (e.number next).2 = next + e.size := by
  induction e generalizing next with
  | var | const => exact ⟨rfl, rfl⟩
  | unary _ _ a ih | cast _ _ a ih =>
    obtain ⟨htags, hnext⟩ := ih next
    rw [size, Nat.add_comm 1, List.range'_concat]
    simp only [number, postorder, List.map_append, List.map_cons, List.map_nil, tag, htags, hnext,
      Nat.one_mul, Nat.add_assoc, and_self]
  | binary _ _ a b iha ihb =>
    obtain ⟨htagsa, hnexta⟩ := iha next
    obtain ⟨htagsb, hnextb⟩ := ihb (next + a.size)
    rw [size, show 1 + a.size + b.size = a.size + b.size + 1 by omega, List.range'_concat,
      ← List.range'_append_1]
    simp only [number, postorder, List.map_append, List.map_cons, List.map_nil, tag, htagsa, hnexta,
      htagsb, hnextb, Nat.one_mul, Nat.add_assoc, and_self]
  | select _ c a b ihc iha ihb =>
    obtain ⟨htagsc, hnextc⟩ := ihc next
    obtain ⟨htagsa, hnexta⟩ := iha (next + c.size)
    obtain ⟨htagsb, hnextb⟩ := ihb (next + c.size + a.size)
    rw [size, show 1 + c.size + a.size + b.size = c.size + a.size + b.size + 1 by omega,
      List.range'_concat, ← List.range'_append_1, ← List.range'_append_1]
    simp only [number, postorder, List.map_append, List.map_cons, List.map_nil, tag, htagsc, hnextc,
      htagsa, hnexta, htagsb, hnextb, Nat.one_mul, ← Nat.add_assoc, and_self]

end Expr

namespace ExprTree

/-- The nodes stand in the order of their numbers, with their operands and the root among them. -/
structure Indexed (t : ExprTree) : Prop where
  tagged : t.nodes.map Expr.tag = List.range t.nodes.length
  closed : ∀ n ∈ t.nodes, ∀ a ∈ n.children, a ∈ t.nodes
  root_mem : t.root ∈ t.nodes

namespace Indexed
variable {t : ExprTree} (h : t.Indexed)
include h

theorem mem_of_mem_preorder {n s : Expr Nat} (hn : n ∈ t.nodes) (hs : s ∈ n.preorder) :
    s ∈ t.nodes := by
  induction hsize : n.size using Nat.strongRecOn generalizing n with
  | ind k ih =>
    subst hsize
    rcases Expr.mem_preorder hs with rfl | ⟨a, ha, hsa⟩
    · exact hn
    · exact ih _ (Expr.size_of_child ha) (h.closed n hn a ha) hsa rfl

/-- The number of a node finds the node. -/
theorem node_of_mem {n : Expr Nat} (hn : n ∈ t.nodes) : t.node? n.tag = some n := by
  obtain ⟨i, hi, rfl⟩ := List.mem_iff_getElem.mp hn
  have htag : (t.nodes.map Expr.tag)[i]? = some i := by
    rw [h.tagged, List.getElem?_range hi]
  rw [List.getElem?_map, List.getElem?_eq_getElem hi] at htag
  rw [node?, Option.some.inj htag, List.getElem?_eq_getElem hi]

theorem eq_of_tag {n m : Expr Nat} (hn : n ∈ t.nodes) (hm : m ∈ t.nodes) (htag : n.tag = m.tag) :
    n = m := by
  have hfound := h.node_of_mem hn
  rw [htag, h.node_of_mem hm] at hfound
  exact (Option.some.inj hfound).symm

end Indexed

/-- Building drafts keeps the nodes in the order of their numbers, with their operands. -/
theorem indexed_buildAll {nodes out : List (Expr Nat)} {ds : List Draft}
    (htagged : nodes.map Expr.tag = List.range nodes.length)
    (hclosed : ∀ n ∈ nodes, ∀ a ∈ n.children, a ∈ nodes)
    (h : Draft.buildAll? nodes ds = some out) :
    out.map Expr.tag = List.range out.length ∧ ∀ n ∈ out, ∀ a ∈ n.children, a ∈ out := by
  induction ds generalizing nodes with
  | nil =>
    obtain rfl := Option.some.inj h
    exact ⟨htagged, hclosed⟩
  | cons d ds ih =>
    obtain ⟨e, he, hrest⟩ := Option.bind_eq_some_iff.mp h
    obtain ⟨htag, hchildren⟩ := Draft.build_eq_some he
    refine ih ?_ (fun n hn a ha => ?_) hrest
    · simp [htagged, htag, List.range_succ]
    · rcases List.mem_append.mp hn with hn | hn
      · exact List.mem_append_left _ (hclosed n hn a ha)
      · rw [List.mem_singleton.mp hn] at ha
        exact List.mem_append_left _ (hchildren a ha)

theorem indexed_ofExpr {α : Type} (e : Expr α) : (ofExpr e).Indexed := by
  have hperm := (e.number 0).1.preorder_perm_postorder
  obtain ⟨htags, -⟩ := e.tags_number 0
  have hlength : e.size = (ofExpr e).nodes.length := by
    have hlength := congrArg List.length htags
    rw [List.length_map, List.length_range'] at hlength
    exact hlength.symm
  refine ⟨?_, fun n hn a ha => ?_, ?_⟩
  · rw [← hlength, List.range_eq_range']
    exact htags
  · refine hperm.mem_iff.mp ?_
    exact Expr.mem_preorder_trans (hperm.mem_iff.mpr hn)
      (Expr.mem_preorder_of_child ha a.mem_preorder_self)
  · exact hperm.mem_iff.mp (Expr.mem_preorder_self _)

/-- **Every tree lists its nodes by number.** -/
theorem Assembled.indexed {t : ExprTree} (h : t.Assembled) : t.Indexed := by
  cases h with
  | built drafts nodes root hnodes htree =>
    obtain ⟨htagged, hclosed⟩ := indexed_buildAll rfl (by simp) hnodes
    rw [ofNodes] at htree
    split at htree
    · rename_i e he
      obtain rfl := Except.ok.inj htree
      exact ⟨htagged, hclosed, List.mem_of_getElem? he⟩
    · cases htree
  | read vars text htree =>
    obtain ⟨e, -, rfl⟩ := map_eq_ok htree
    exact indexed_ofExpr e

/-- **In a tree that was read from text no node is shared.** -/
theorem nodup_tags {vars : Typing} {text : String} {t : ExprTree} (h : ofText vars text = .ok t) :
    t.root.tags.Nodup := by
  obtain ⟨e, -, rfl⟩ := map_eq_ok h
  have hperm := (e.number 0).1.preorder_perm_postorder.map Expr.tag
  refine hperm.nodup_iff.mpr ?_
  rw [(e.tags_number 0).1]
  exact List.nodup_range'

end ExprTree
end CustomIsa
