import Mathlib.Logic.Relation
import CustomIsa.Proofs.Match.Cover
import CustomIsa.Proofs.Match.Rounding
/-! # The search for a cover ends

A cover can be worked out with a list of the nodes that are still to be looked at (`Worklist`): the
next node is taken off the list, its match or its ambiguity goes to the cover, and the nodes at
which the search goes on come to the front. These are the nodes right below or, after a match, the
nodes that its registers are bound to. The latter are looked up by their sources in the whole form,
where a source node that is shared has several nodes, in different places; the last one counts.

Each node is followed by nodes of smaller numbers only (`Matcher.source_lt_of_nextNodes`): a
template is rooted at an operator, so registers meet what lies below the node of the match, and what
lies below stands for expressions below. The place where a node is found makes no difference, as all
nodes of one source are equal (`ExprTree.Indexed.eq_of_source`). So the search ends, with the cover
that the recursion of `Matcher.cover` finds in a given number of steps (`Matcher.search_ends`). -/
namespace CustomIsa

/-- A cover in the making: the nodes that are still to be looked at, the next one first, and what
has been found so far. -/
structure Worklist where
  pending : List Canon
  cover : Cover

/-- The last node of a form that stands for a source node. -/
def Canon.lastOf? (root : Canon) (number : Nat) : Option Canon :=
  (root.preorder.filter fun c => !c.origin.synthetic).reverse.find? (·.source = number)

namespace Matcher

/-- What a node adds to a cover: its match, its ambiguity, or nothing. -/
def tile (m : Matcher) (c : Canon) : Cover :=
  match m.candidates c with
  | [] => {}
  | top :: rest =>
    if 1 < (tied (top :: rest)).length then { ambiguous := [⟨top.root, tied (top :: rest)⟩] }
    else { found := [top] }

/-- The nodes at which the search goes on after a node. -/
def nextNodes (m : Matcher) (root c : Canon) : List Canon :=
  match m.candidates c with
  | [] => c.children
  | top :: rest =>
    if 1 < (tied (top :: rest)).length then c.children
    else top.instruction.operands.values.filterMap fun
      | .value node => root.lastOf? node
      | .imm _ => none

/-- One round of the search, as long as there are nodes to be looked at. -/
def round? (m : Matcher) (root : Canon) (w : Worklist) : Option Worklist :=
  match w.pending with
  | [] => none
  | c :: rest => some ⟨m.nextNodes root c ++ rest, w.cover.append (m.tile c)⟩

/-- Some rounds of the search lead from one work list to another. -/
def Rounds (m : Matcher) (root : Canon) : Worklist → Worklist → Prop :=
  Relation.ReflTransGen fun w w' => m.round? root w = some w'

/-- The search for a cover of a tree comes to the work list. -/
def Searches (m : Matcher) (t : ExprTree) (w : Worklist) : Prop :=
  m.Rounds (Canon.ofExpr t.root) ⟨[Canon.ofExpr t.root], {}⟩ w

end Matcher

namespace Cover

theorem append_empty (a : Cover) : a.append {} = a := by
  simp [append]

theorem append_assoc (a b c : Cover) : (a.append b).append c = a.append (b.append c) := by
  simp [append]

end Cover

/-! ## Nodes of one source -/

theorem find?_reverse_of_unique {α : Type} {p : α → Bool} {l : List α}
    (h : ∀ a ∈ l, ∀ b ∈ l, p a = true → p b = true → a = b) : l.reverse.find? p = l.find? p := by
  cases hlast : l.reverse.find? p with
  | none =>
    rw [List.find?_eq_none] at hlast
    exact (List.find?_eq_none.mpr fun a ha => hlast a (List.mem_reverse.mpr ha)).symm
  | some a =>
    have ha := List.mem_reverse.mp (List.mem_of_find?_eq_some hlast)
    obtain ⟨b, hb⟩ := Option.isSome_iff_exists.mp
      (List.find?_isSome.mpr ⟨a, ha, List.find?_some hlast⟩)
    rw [hb, h b (List.mem_of_find?_eq_some hb) a ha (List.find?_some hb) (List.find?_some hlast)]

namespace ExprTree.Indexed
variable {t : ExprTree} (ht : t.Indexed)
include ht

/-- All nodes of the form that stand for one source node are equal, also where it is shared. -/
theorem eq_of_source {c d : Canon} (hc : c ∈ (Canon.ofExpr t.root).preorder)
    (hd : d ∈ (Canon.ofExpr t.root).preorder) (h : c.source = d.source) : c = d :=
  Canon.eq_of_source (fun _ hs _ hu => ht.eq_of_tag (ht.mem_of_mem_preorder ht.root_mem hs)
    (ht.mem_of_mem_preorder ht.root_mem hu)) hc hd h

/-- So it makes no difference whether the first or the last of them is taken. -/
theorem lastOf?_eq (number : Nat) :
    (Canon.ofExpr t.root).lastOf? number =
      (Canon.ofExpr t.root).preorder.find? (·.source = number) := by
  have hreal : (Canon.ofExpr t.root).preorder.filter (fun c => !c.origin.synthetic) =
      (Canon.ofExpr t.root).preorder := by
    refine List.filter_eq_self.mpr fun c hc => ?_
    obtain ⟨s, -, rfl⟩ := Canon.form_of_mem_preorder hc
    rw [Canon.real_ofExpr, Bool.not_false]
  rw [Canon.lastOf?, hreal]
  refine find?_reverse_of_unique fun c hc d hd hcn hdn => ht.eq_of_source hc hd ?_
  exact (of_decide_eq_true hcn).trans (of_decide_eq_true hdn).symm

end ExprTree.Indexed

/-! ## Smaller numbers -/

/-- What lies below a node of a form stands for a source node with a smaller number. -/
theorem Canon.source_lt_of_below {e : Expr Nat} (he : e.Ordered) {a d : Canon}
    (ha : a ∈ (ofExpr e).children) (hd : d ∈ a.preorder) : d.source < (ofExpr e).source := by
  obtain ⟨s, hs, rfl⟩ := child_ofExpr ha
  obtain ⟨u, hu, rfl⟩ := form_of_mem_preorder hd
  rw [source, source, source_ofExpr, source_ofExpr]
  exact Nat.lt_of_le_of_lt ((he.of_mem hs.mem).tag_le hu) (he.tag_lt hs)

namespace Match
variable {limits : Limits}

/-- A register meets only what lies below a node at which an operator stands. -/
theorem Stems.below_of_lookup {e : Entry} {c : Canon} {cand : Candidate} {t : Template} {s : State}
    {ms : List (Operand × Slot)} (h : Stems limits e c cand t s ms) (ht : Compiled e t)
    {name : String} {d : Canon} (hslot : s.slots.lookup name = some (.node d)) :
    ∃ a ∈ c.children, d ∈ a.preorder := by
  obtain ⟨op, -, hmet⟩ := met_of_lookup h.met hslot
  rcases h.aligned.met_below ht.reads with ⟨guards, op, rfl, -⟩ | hbelow
  · cases ht.operator
  · exact hbelow op d hmet

end Match

namespace Matcher
open Match

section Loaded
variable {config : RegistrySettings} {extensions : List Extension} {r : Registry}
  (hload : Registry.load config extensions = .ok r) {settings : MatchSettings}
include hload

/-- A register of a candidate is bound to a source node that has a node below. -/
theorem below_of_binding {c : Canon} {cand : Candidate}
    (h : cand ∈ (Matcher.new r settings).candidates c) {name : String} {n : Nat}
    (hbound : cand.binding? name = some (.value n)) :
    ∃ a ∈ c.children, ∃ d ∈ a.preorder, d.source = n := by
  rcases (mem_candidates_of_loaded (Registry.loaded_of_load hload)).mp h with
    ⟨e, he, hattempt⟩ | ⟨-, shift, hshift, base, variant, hpair, hattempt⟩
  · obtain ⟨t, s, ms, hstems⟩ := stems_of_attempt hattempt
    have ht := compiled_of_load hload he hstems.template
    rw [hstems.binding_eq ht.reads] at hbound
    obtain ⟨slot, hslot, hvalue⟩ := Option.bind_eq_some_iff.mp hbound
    obtain ⟨d, rfl, hsource⟩ := node_of_boundOf hvalue
    obtain ⟨a, ha, hd⟩ := hstems.below_of_lookup ht hslot
    exact ⟨a, ha, d, hd, hsource⟩
  · -- the sum without its constant is synthetic, so a register has met a term or the amount
    obtain ⟨o, so, terms, k, adds, amount, rfl, rfl⟩ := roundingShift_eq_some hshift
    obtain ⟨plain, hplain, rfl⟩ := Option.map_eq_some_iff.mp hattempt
    obtain ⟨t, s, ms, hstems⟩ := stems_of_attempt hplain
    have ht := compiled_of_load hload (Registry.mem_of_mem_roundingPairs hpair).1 hstems.template
    have hbound := (hstems.binding_eq ht.reads name).symm.trans hbound
    obtain ⟨slot, hslot, hvalue⟩ := Option.bind_eq_some_iff.mp hbound
    obtain ⟨d, rfl, hsource⟩ := node_of_boundOf hvalue
    obtain ⟨a, ha, hd⟩ := hstems.mem_term_of_lookup ht.reads hslot
    rcases List.mem_cons.mp ha with rfl | ha
    · exact ⟨a, by simp [Canon.children], d, hd, hsource⟩
    · exact ⟨.sum so terms k adds, by simp [Canon.children], d,
        Canon.mem_preorder_of_child ha hd, hsource⟩

/-- Where the search goes on: at a node right below, or at one of the whole form that stands for the
same source node as one below. -/
theorem mem_nextNodes {root c d : Canon} (hd : d ∈ (Matcher.new r settings).nextNodes root c) :
    d ∈ c.children ∨
      d ∈ root.preorder ∧ ∃ a ∈ c.children, ∃ x ∈ a.preorder, x.source = d.source := by
  unfold nextNodes at hd
  split at hd
  · exact .inl hd
  · rename_i top rest hfound
    split at hd
    · exact .inl hd
    · obtain ⟨b, hb, hlast⟩ := List.mem_filterMap.mp hd
      obtain ⟨entry, hentry, rfl⟩ := List.mem_map.mp hb
      split at hlast
      · rename_i n hvalue
        have hmem := List.mem_reverse.mp (List.mem_of_find?_eq_some hlast)
        have hsource : d.source = n := by simpa using List.find?_some hlast
        have hbound : top.binding? entry.1 = some (.value n) := by
          rw [Candidate.binding?, NameMap.get?_of_mem _ hentry, hvalue]
        rw [hsource]
        exact .inr ⟨(List.mem_filter.mp hmem).1,
          below_of_binding hload (hfound ▸ List.mem_cons_self) hbound⟩
      · cases hlast

theorem mem_preorder_of_nextNodes {root c d : Canon} (hc : c ∈ root.preorder)
    (hd : d ∈ (Matcher.new r settings).nextNodes root c) : d ∈ root.preorder := by
  rcases mem_nextNodes hload hd with hchild | ⟨hmem, -⟩
  · exact Canon.mem_preorder_trans hc
      (Canon.mem_preorder_of_child hchild (Canon.mem_preorder_self d))
  · exact hmem

/-- **The search goes on at source nodes with smaller numbers.** -/
theorem source_lt_of_nextNodes {e : Expr Nat} (he : e.Ordered) {root d : Canon}
    (hd : d ∈ (Matcher.new r settings).nextNodes root (Canon.ofExpr e)) :
    d.source < (Canon.ofExpr e).source := by
  rcases mem_nextNodes hload hd with hchild | ⟨-, a, ha, x, hx, hsource⟩
  · exact Canon.source_lt_of_below he hchild (Canon.mem_preorder_self d)
  · rw [← hsource]
    exact Canon.source_lt_of_below he ha hx

end Loaded

/-! ## Rounds of the search -/

theorem round?_eq_some {m : Matcher} {root : Canon} {w w' : Worklist}
    (h : m.round? root w = some w') :
    ∃ c rest, w.pending = c :: rest ∧
      w' = ⟨m.nextNodes root c ++ rest, w.cover.append (m.tile c)⟩ := by
  unfold round? at h
  split at h
  · cases h
  · rename_i c rest hpending
    exact ⟨c, rest, hpending, (Option.some.inj h).symm⟩

/-- One step of the recursion: what the node adds, and what comes from the nodes after it. -/
theorem coverFrom_succ (m : Matcher) {t : ExprTree} (ht : t.Indexed) (steps : Nat) (c : Canon) :
    m.coverFrom (Canon.ofExpr t.root) (steps + 1) c =
      (m.tile c).append (.concat ((m.nextNodes (Canon.ofExpr t.root) c).map
        (m.coverFrom (Canon.ofExpr t.root) steps))) := by
  rw [coverFrom, tile, nextNodes]
  cases m.candidates c with
  | nil => rfl
  | cons top rest =>
    simp only
    split
    · rfl
    · simp only [ht.lastOf?_eq]
      rfl

/-- One node after another is taken off the list, if each can be on its own. -/
theorem rounds_concat {m : Matcher} {root : Canon} {f : Canon → Cover} {ds : List Canon}
    (h : ∀ d ∈ ds, ∀ rest cover, m.Rounds root ⟨d :: rest, cover⟩ ⟨rest, cover.append (f d)⟩)
    (rest : List Canon) (cover : Cover) :
    m.Rounds root ⟨ds ++ rest, cover⟩ ⟨rest, cover.append (.concat (ds.map f))⟩ := by
  induction ds generalizing cover with
  | nil =>
    rw [List.map_nil, Cover.concat, List.foldr_nil, Cover.append_empty]
    exact .refl
  | cons d ds ih =>
    rw [List.forall_mem_cons] at h
    have hfirst := h.1 (ds ++ rest) cover
    have hrest := ih h.2 (cover.append (f d))
    rw [Cover.append_assoc] at hrest
    exact hfirst.trans hrest

section Loaded
variable {config : RegistrySettings} {extensions : List Extension} {r : Registry}
  (hload : Registry.load config extensions = .ok r) {settings : MatchSettings} {t : ExprTree}
include hload

/-- **A node is worked off with all that follows from it**: some rounds leave the rest of the list
as it is, and find what the recursion finds if it may take more steps than the number of the
node. -/
theorem rounds_coverFrom (ht : t.Assembled) {c : Canon}
    (hc : c ∈ (Canon.ofExpr t.root).preorder) {steps : Nat} (hsteps : c.source < steps)
    (rest : List Canon) (cover : Cover) :
    (Matcher.new r settings).Rounds (Canon.ofExpr t.root) ⟨c :: rest, cover⟩
      ⟨rest, cover.append ((Matcher.new r settings).coverFrom (Canon.ofExpr t.root) steps c)⟩ := by
  induction steps generalizing c rest cover with
  | zero => omega
  | succ steps ih =>
    have hord := ht.ordered ht.indexed.root_mem
    -- the nodes that follow have smaller numbers, so for each of them one step less is enough
    have hnext : ∀ d ∈ (Matcher.new r settings).nextNodes (Canon.ofExpr t.root) c,
        d.source < steps := by
      intro d hd
      obtain ⟨s, hs, rfl⟩ := Canon.form_of_mem_preorder hc
      have hlt := source_lt_of_nextNodes hload (hord.of_mem hs) hd
      omega
    rw [coverFrom_succ _ ht.indexed, ← Cover.append_assoc]
    refine .head rfl (rounds_concat (fun d hd => ?_) rest _)
    exact ih (mem_preorder_of_nextNodes hload hc hd) (hnext d hd)

/-- A round keeps to the nodes of the form. -/
theorem mem_preorder_of_round {root : Canon} {w w' : Worklist}
    (hw : ∀ c ∈ w.pending, c ∈ root.preorder)
    (h : (Matcher.new r settings).round? root w = some w') :
    ∀ c ∈ w'.pending, c ∈ root.preorder := by
  obtain ⟨c, rest, hpending, rfl⟩ := round?_eq_some h
  rw [hpending, List.forall_mem_cons] at hw
  exact List.forall_mem_append.mpr ⟨fun d hd => mem_preorder_of_nextNodes hload hw.1 hd, hw.2⟩

/-- So the search looks at nothing else. -/
theorem mem_preorder_of_searches {w : Worklist} (h : (Matcher.new r settings).Searches t w) :
    ∀ c ∈ w.pending, c ∈ (Canon.ofExpr t.root).preorder := by
  induction h with
  | refl =>
    intro c hc
    rw [List.mem_singleton.mp hc]
    exact Canon.mem_preorder_self _
  | tail _ hround ih => exact mem_preorder_of_round hload ih hround

end Loaded

/-- **The search for a cover ends.** With any settings and for any tree, shared nodes or not, the
search comes to an empty work list, and has found the cover. Whenever it takes a node off the list,
all nodes that it puts there stand for nodes of the tree with smaller numbers. -/
theorem search_ends {config : RegistrySettings} {extensions : List Extension} {r : Registry}
    (hload : Registry.load config extensions = .ok r) (settings : MatchSettings) {t : ExprTree}
    (ht : t.Assembled) :
    (Matcher.new r settings).Searches t ⟨[], (Matcher.new r settings).cover t⟩ ∧
    ∀ c rest cover, (Matcher.new r settings).Searches t ⟨c :: rest, cover⟩ →
      ∀ d ∈ (Matcher.new r settings).nextNodes (Canon.ofExpr t.root) c,
        t.node? d.source = some d.origin.source ∧ d.source < c.source := by
  refine ⟨?_, fun c rest cover hsearch d hd => ?_⟩
  · exact rounds_coverFrom hload ht (Canon.mem_preorder_self _) (Nat.lt_succ_self _) [] {}
  · have hc := mem_preorder_of_searches hload hsearch c List.mem_cons_self
    have hmem := mem_preorder_of_nextNodes hload hc hd
    refine ⟨?_, ?_⟩
    · obtain ⟨s, hs, rfl⟩ := Canon.form_of_mem_preorder hmem
      rw [Canon.source, Canon.source_ofExpr]
      exact ht.indexed.node_of_mem (ht.indexed.mem_of_mem_preorder ht.indexed.root_mem hs)
    · obtain ⟨s, hs, rfl⟩ := Canon.form_of_mem_preorder hc
      exact source_lt_of_nextNodes hload ((ht.ordered ht.indexed.root_mem).of_mem hs) hd

/-- A product is shared by two sums under the root: the first of them has a match, which goes on at
the product, and that is found in the second one. -/
theorem search_ends_shared :
    ∃ r nodes t c rest, Registry.load {} [Bundled.xexample] = .ok r ∧
      Draft.buildAll? [] [.var "a" .i32, .var "b" .i32, .var "z" .i32, .binary .mul 0 1,
        .binary .add 3 0, .binary .sub 4 1, .literal 1, .binary .add 5 6, .binary .add 3 2,
        .binary .xor 7 8] = some nodes ∧
      ExprTree.ofNodes nodes 9 = .ok t ∧
      (Matcher.new r {}).Searches t ⟨[], (Matcher.new r {}).cover t⟩ ∧
      (Matcher.new r {}).nextNodes (Canon.ofExpr t.root) (Canon.ofExpr t.root) = c :: rest ∧
      c.source = 7 ∧
      ((Matcher.new r {}).nextNodes (Canon.ofExpr t.root) c).map Canon.source = [3, 0, 1] ∧
      ∀ d ∈ (Matcher.new r {}).nextNodes (Canon.ofExpr t.root) c, d.source < c.source := by
  have hrun : (Registry.load {} [Bundled.xexample]).toOption.any (fun r =>
      (Draft.buildAll? [] [.var "a" .i32, .var "b" .i32, .var "z" .i32, .binary .mul 0 1,
        .binary .add 3 0, .binary .sub 4 1, .literal 1, .binary .add 5 6, .binary .add 3 2,
        .binary .xor 7 8]).any fun nodes =>
          (ExprTree.ofNodes nodes 9).toOption.any fun t =>
            ((Matcher.new r {}).nextNodes (Canon.ofExpr t.root) (Canon.ofExpr t.root)).head?.any
              fun c => c.source = 7 &&
                ((Matcher.new r {}).nextNodes (Canon.ofExpr t.root) c).map Canon.source =
                  [3, 0, 1]) = true := by
    decide +kernel
  obtain ⟨r, hload, hany⟩ := Option.any_eq_true _ _ |>.mp hrun
  obtain ⟨nodes, hnodes, hany⟩ := Option.any_eq_true _ _ |>.mp hany
  obtain ⟨t, htree, hany⟩ := Option.any_eq_true _ _ |>.mp hany
  obtain ⟨c, hfirst, hcase⟩ := Option.any_eq_true _ _ |>.mp hany
  obtain ⟨hsource, hnext⟩ := Bool.and_eq_true_iff.mp hcase
  obtain ⟨rest, hrest⟩ := List.head?_eq_some_iff.mp hfirst
  have hload := eq_ok_of_toOption hload
  have htree := eq_ok_of_toOption htree
  obtain ⟨hends, hsmaller⟩ := search_ends hload {} (.built _ nodes 9 hnodes htree)
  have hround : (Matcher.new r {}).Searches t
      ⟨(Matcher.new r {}).nextNodes (Canon.ofExpr t.root) (Canon.ofExpr t.root) ++ [],
        Cover.append {} ((Matcher.new r {}).tile (Canon.ofExpr t.root))⟩ := .single rfl
  rw [hrest] at hround
  exact ⟨r, nodes, t, c, rest, hload, hnodes, htree, hends, hrest, of_decide_eq_true hsource,
    of_decide_eq_true hnext, fun d hd => (hsmaller c _ _ hround d hd).2⟩

end Matcher
end CustomIsa
