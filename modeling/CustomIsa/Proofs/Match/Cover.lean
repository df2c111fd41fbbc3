import CustomIsa.Proofs.Match.WellFormed
/-! # Covers tile disjointly

A cover goes down a canonical form: from a node without a single best candidate to the nodes right
below, from a match to the nodes that its registers are bound to. What went into two of these nodes
is disjoint, and disjoint from what the match replaces, because every node of a form serves an
alignment once at most. So all matches of a cover lie in disjoint regions of the form
(`Matcher.Tiled`).

In a tree that was read from text no source node is shared, so disjoint regions of the form are
disjoint parts of the tree (`Matcher.cover_tiles`), and a source node has one node of the form at
most, at which the search goes on. -/
namespace CustomIsa

/-! ## Regions of a form -/

namespace Canon

/-- What went into the nodes right below is disjoint, if nothing went into the form twice. -/
theorem pairwise_children {c : Canon} (h : c.allAbsorbed.Nodup) :
    c.children.Pairwise fun a b => a.allAbsorbed.Disjoint b.allAbsorbed := by
  rw [allAbsorbed_eq] at h
  exact (List.nodup_flatMap.mp (List.nodup_append.mp h).2.1).2

theorem nodup_of_child {c d : Canon} (h : c.allAbsorbed.Nodup) (hd : d ∈ c.children) :
    d.allAbsorbed.Nodup := by
  rw [allAbsorbed_eq] at h
  exact (List.nodup_flatMap.mp (List.nodup_append.mp h).2.1).1 d hd

theorem nodup_of_mem {c d : Canon} (h : c.allAbsorbed.Nodup) (hd : d ∈ c.preorder) :
    d.allAbsorbed.Nodup := by
  induction hn : sizeOf c using Nat.strongRecOn generalizing c with
  | ind n ih =>
    subst hn
    rw [preorder_eq] at hd
    rcases List.mem_cons.mp hd with rfl | hbelow
    · exact h
    · obtain ⟨a, ha, hda⟩ := List.mem_flatMap.mp hbelow
      exact ih _ (sizeOf_lt_of_child ha) (nodup_of_child h ha) hda rfl

/-- Where every number is that of one source node, all nodes of the form that stand for it are
equal. -/
theorem eq_of_source {p : Expr Nat}
    (hp : ∀ ⦃s⦄, s ∈ p.preorder → ∀ ⦃u⦄, u ∈ p.preorder → s.tag = u.tag → s = u) {c d : Canon}
    (hc : c ∈ (ofExpr p).preorder) (hd : d ∈ (ofExpr p).preorder) (h : c.source = d.source) :
    c = d := by
  obtain ⟨s, hs, rfl⟩ := form_of_mem_preorder hc
  obtain ⟨u, hu, rfl⟩ := form_of_mem_preorder hd
  rw [source, source, source_ofExpr, source_ofExpr] at h
  rw [hp hs hu h]

end Canon

theorem count_le_flatMap {α : Type} {f : α → List Nat} {l : List α} {x : α} (hx : x ∈ l) (n : Nat) :
    (f x).count n ≤ (l.flatMap f).count n := by
  rw [List.flatMap_def]
  exact (List.sublist_flatten_of_mem (List.mem_map_of_mem hx)).count_le n

/-- Two different elements of a list count side by side. -/
theorem count_add_le_flatMap {α : Type} {f : α → List Nat} {l : List α} {x y : α} (hx : x ∈ l)
    (hy : y ∈ l) (hne : x ≠ y) (n : Nat) :
    (f x).count n + (f y).count n ≤ (l.flatMap f).count n := by
  induction l with
  | nil => cases hx
  | cons a l ih =>
    rw [List.flatMap_cons, List.count_append]
    rcases List.mem_cons.mp hx with rfl | hxl
    · have hrest := count_le_flatMap (f := f) ((List.mem_cons.mp hy).resolve_left hne.symm) n
      omega
    · rcases List.mem_cons.mp hy with rfl | hyl
      · have hrest := count_le_flatMap (f := f) hxl n
        omega
      · have hrest := ih hxl hyl
        omega

namespace Match.Footprint
variable {c : Canon} {cand : Candidate} {slots : List (String × Slot)} (h : Footprint c cand slots)
  (hnodup : c.allAbsorbed.Nodup)
include h hnodup

theorem inside : cand.absorbed ⊆ c.allAbsorbed := by
  intro n hn
  have hused := h.used hnodup n
  have hpos := List.count_pos_iff.mpr hn
  exact List.count_pos_iff.mp (by omega)

/-- What a match replaces is disjoint from what its registers have met. -/
theorem disjoint_node {name : String} {d : Canon} (hd : slots.lookup name = some (.node d)) :
    d.allAbsorbed.Disjoint cand.absorbed := by
  intro n hnode habsorbed
  have hused := h.used hnodup n
  have hslot := count_le_flatMap (f := fun s : String × Slot => s.2.numbers)
    (NameMap.mem_of_lookup hd) n
  have hone := List.nodup_iff_count_le_one.mp hnodup n
  have hpos : 0 < (Slot.node d).numbers.count n := List.count_pos_iff.mpr hnode
  have hpos' := List.count_pos_iff.mpr habsorbed
  simp only at hslot
  omega

/-- What two registers have met is disjoint. -/
theorem disjoint_nodes {name name' : String} {d d' : Canon} (hne : name ≠ name')
    (hd : slots.lookup name = some (.node d)) (hd' : slots.lookup name' = some (.node d')) :
    d.allAbsorbed.Disjoint d'.allAbsorbed := by
  intro n hnode hnode'
  have hused := h.used hnodup n
  have hslots := count_add_le_flatMap (f := fun s : String × Slot => s.2.numbers)
    (NameMap.mem_of_lookup hd) (NameMap.mem_of_lookup hd')
    (fun heq => hne (congrArg Prod.fst heq)) n
  have hone := List.nodup_iff_count_le_one.mp hnodup n
  have hpos : 0 < (Slot.node d).numbers.count n := List.count_pos_iff.mpr hnode
  have hpos' : 0 < (Slot.node d').numbers.count n := List.count_pos_iff.mpr hnode'
  simp only at hslots
  omega

end Match.Footprint

/-! ## Going on from a match -/

namespace Matcher
open Match

/-- Only a node is bound as the value of a source node. -/
theorem node_of_boundOf {slot : Slot} {n : Nat} (h : boundOf? slot = some (.value n)) :
    ∃ d, slot = .node d ∧ d.source = n := by
  cases slot with
  | node d =>
    rw [boundOf?] at h
    split at h
    · cases h
    · exact ⟨d, rfl, Bound.value.inj (Option.some.inj h)⟩
  | imm v =>
    rw [boundOf?] at h
    split at h <;> cases h

/-- A register that is bound to a source node has met the node of the form that stands for it. -/
theorem node_of_binding {c : Canon} {cand : Candidate} {slots : List (String × Slot)}
    (h : Footprint c cand slots) {name : String} {n : Nat}
    (hbound : cand.binding? name = some (.value n)) :
    ∃ d ∈ c.preorder, slots.lookup name = some (.node d) ∧ d.source = n := by
  rw [h.binding] at hbound
  obtain ⟨slot, hslot, hvalue⟩ := Option.bind_eq_some_iff.mp hbound
  obtain ⟨d, rfl, hsource⟩ := node_of_boundOf hvalue
  obtain ⟨op, -, hplaced, -⟩ := h.placed name _ hslot
  cases hplaced with
  | node _ _ hd => exact ⟨d, hd, hslot, hsource⟩

section Operands
variable {p : Expr Nat} (hp : p.tags.Nodup) {c : Canon} (hc : c ∈ (Canon.ofExpr p).preorder)
  {cand : Candidate} {slots : List (String × Slot)} (h : Footprint c cand slots)
include hp hc h

/-- The node that an entry of the operands leads to is the one that the register has met. -/
theorem lookup_of_find {entry : String × Bound} (hentry : entry ∈ cand.instruction.operands.toList)
    {n : Nat} (hvalue : entry.2 = .value n) {d : Canon}
    (hfind : (Canon.ofExpr p).preorder.find? (·.source = n) = some d) :
    slots.lookup entry.1 = some (.node d) := by
  have hbound : cand.binding? entry.1 = some (.value n) := by
    rw [Candidate.binding?, NameMap.get?_of_mem _ hentry, hvalue]
  obtain ⟨met, hmet, hslot, hsource⟩ := node_of_binding h hbound
  have hsource' : d.source = n := by simpa using List.find?_some hfind
  rw [Canon.eq_of_source (List.inj_on_of_nodup_map hp) (List.mem_of_find?_eq_some hfind)
    (Canon.mem_preorder_trans hc hmet) (hsource'.trans hsource.symm)]
  exact hslot

theorem mem_operandNodes {d : Canon}
    (hd : d ∈ operandNodes (Canon.ofExpr p) cand.instruction) :
    ∃ name, slots.lookup name = some (.node d) := by
  obtain ⟨b, hb, hfind⟩ := List.mem_filterMap.mp hd
  obtain ⟨entry, hentry, rfl⟩ := List.mem_map.mp hb
  split at hfind
  · rename_i n hvalue
    exact ⟨entry.1, lookup_of_find hp hc h hentry hvalue hfind⟩
  · cases hfind

theorem pairwise_operandNodes (hnodup : c.allAbsorbed.Nodup) :
    (operandNodes (Canon.ofExpr p) cand.instruction).Pairwise
      fun a b => a.allAbsorbed.Disjoint b.allAbsorbed := by
  unfold operandNodes NameMap.values
  rw [List.filterMap_map, List.pairwise_filterMap]
  refine cand.instruction.operands.sorted.imp_of_mem fun {x y} hx hy hlt a ha b hb => ?_
  have hne : x.1 ≠ y.1 := by
    intro heq
    rw [heq] at hlt
    exact String.lt_irrefl _ hlt
  simp only [Function.comp_apply] at ha hb
  split at ha
  · rename_i n hn
    split at hb
    · rename_i k hk
      exact h.disjoint_nodes hnodup hne (lookup_of_find hp hc h hx hn ha)
        (lookup_of_find hp hc h hy hk hb)
    · cases hb
  · cases ha

end Operands
/-! ## Tiles -/

/-- What the matches replace lies in a region, each apart from the others. -/
structure Tiled (region : List Nat) (found : List Candidate) : Prop where
  inside : ∀ cand ∈ found, cand.absorbed ⊆ region
  apart : found.Pairwise fun a b => a.absorbed.Disjoint b.absorbed

theorem Tiled.mono {region region' : List Nat} {found : List Candidate} (h : Tiled region found)
    (hsub : region ⊆ region') : Tiled region' found :=
  ⟨fun cand hcand _ hn => hsub (h.inside cand hcand hn), h.apart⟩

/-- A match goes before tiles of a region that it leaves alone. -/
theorem Tiled.cons {region region' : List Nat} {found : List Candidate} (h : Tiled region found)
    (hsub : region ⊆ region') {cand : Candidate} (hinside : cand.absorbed ⊆ region')
    (hdisjoint : region.Disjoint cand.absorbed) : Tiled region' (cand :: found) := by
  refine ⟨?_, List.pairwise_cons.mpr ⟨fun other hother n hn hn' => ?_, h.apart⟩⟩
  · rw [List.forall_mem_cons]
    exact ⟨hinside, (h.mono hsub).inside⟩
  · exact hdisjoint (h.inside other hother hn') hn

/-- Tiles of disjoint regions, one after another, are tiles of them all. -/
theorem tiled_concat {ds : List Canon} {cover : Canon → Cover}
    (hds : ds.Pairwise fun a b => a.allAbsorbed.Disjoint b.allAbsorbed)
    (hcover : ∀ d ∈ ds, Tiled d.allAbsorbed (cover d).found) :
    Tiled (ds.flatMap Canon.allAbsorbed) (Cover.concat (ds.map cover)).found := by
  induction ds with
  | nil => exact ⟨by simp [Cover.concat], List.Pairwise.nil⟩
  | cons d ds ih =>
    obtain ⟨hhead, htail⟩ := List.pairwise_cons.mp hds
    rw [List.forall_mem_cons] at hcover
    have hfirst := hcover.1
    have hrest := ih htail hcover.2
    show Tiled _ ((cover d).found ++ (Cover.concat (ds.map cover)).found)
    refine ⟨fun cand hcand => ?_, List.pairwise_append.mpr ⟨hfirst.apart, hrest.apart, ?_⟩⟩
    · rw [List.flatMap_cons]
      rcases List.mem_append.mp hcand with hcand | hcand
      · exact fun n hn => List.mem_append_left _ (hfirst.inside cand hcand hn)
      · exact fun n hn => List.mem_append_right _ (hrest.inside cand hcand hn)
    · intro a ha b hb n hna hnb
      obtain ⟨x, hx, hnx⟩ := List.mem_flatMap.mp (hrest.inside b hb hnb)
      exact hhead x hx (hfirst.inside a ha hna) hnx

section Loaded
variable {config : RegistrySettings} {extensions : List Extension} {r : Registry}
  (hload : Registry.load config extensions = .ok r) (settings : MatchSettings) {p : Expr Nat}
  (hp : p.tags.Nodup) (hnodup : (Canon.ofExpr p).allAbsorbed.Nodup)
include hload hp hnodup

/-- **The cover below a node of the form tiles what went into that node.** -/
theorem tiled_coverFrom (steps : Nat) {c : Canon} (hc : c ∈ (Canon.ofExpr p).preorder) :
    Tiled c.allAbsorbed ((Matcher.new r settings).coverFrom (Canon.ofExpr p) steps c).found := by
  induction steps generalizing c with
  | zero => exact ⟨by simp [coverFrom], List.Pairwise.nil⟩
  | succ steps ih =>
    have hregion := Canon.nodup_of_mem hnodup hc
    have hchildren : Tiled c.allAbsorbed (Cover.concat
        (c.children.map ((Matcher.new r settings).coverFrom (Canon.ofExpr p) steps))).found := by
      refine (tiled_concat (Canon.pairwise_children hregion) fun d hd => ih ?_).mono fun n hn => ?_
      · exact Canon.mem_preorder_trans hc
          (Canon.mem_preorder_of_child hd (Canon.mem_preorder_self d))
      · rw [Canon.allAbsorbed_eq]
        exact List.mem_append_right _ hn
    rw [coverFrom]
    split
    · exact hchildren
    · rename_i top rest hfound
      split
      · exact hchildren
      · have hform : c.IsForm := by
          obtain ⟨s, -, rfl⟩ := Canon.form_of_mem_preorder hc
          exact ⟨s, rfl⟩
        obtain ⟨-, slots, hfoot⟩ := footprint_of_mem hload hform (hfound ▸ List.mem_cons_self)
        have hnodes := fun d hd => mem_operandNodes hp hc hfoot (d := d) hd
        have htiles := tiled_concat (pairwise_operandNodes hp hc hfoot hregion)
          fun d hd => ih (mem_preorder_of_operandNodes hd)
        refine htiles.cons (fun n hn => ?_) (hfoot.inside hregion) fun n hn => ?_
        · obtain ⟨d, hd, hn⟩ := List.mem_flatMap.mp hn
          obtain ⟨name, hslot⟩ := hnodes d hd
          obtain ⟨op, -, hplaced, -⟩ := hfoot.placed name _ hslot
          cases hplaced with
          | node _ _ hmem => exact Canon.allAbsorbed_subset hmem hn
        · obtain ⟨d, hd, hn⟩ := List.mem_flatMap.mp hn
          obtain ⟨name, hslot⟩ := hnodes d hd
          exact hfoot.disjoint_node hregion hslot hn

end Loaded

/-! ## Empty covers -/

theorem concat_empty_iff {covers : List Cover} :
    (Cover.concat covers).found = [] ∧ (Cover.concat covers).ambiguous = [] ↔
      ∀ cover ∈ covers, cover.found = [] ∧ cover.ambiguous = [] := by
  induction covers with
  | nil => simp [Cover.concat]
  | cons cover covers ih =>
    show cover.found ++ (Cover.concat covers).found = [] ∧
      cover.ambiguous ++ (Cover.concat covers).ambiguous = [] ↔ _
    rw [List.forall_mem_cons, ← ih, List.append_eq_nil_iff, List.append_eq_nil_iff]
    exact and_and_and_comm

/-- A cover with enough steps is empty exactly if there are no candidates at any node of the
form. -/
theorem coverFrom_empty_iff {m : Matcher} {root : Canon} {e : Expr Nat} (he : e.Ordered)
    {steps : Nat} (hsteps : e.tag < steps) :
    (m.coverFrom root steps (Canon.ofExpr e)).found = [] ∧
        (m.coverFrom root steps (Canon.ofExpr e)).ambiguous = [] ↔
      ∀ c ∈ (Canon.ofExpr e).preorder, m.candidates c = [] := by
  induction steps generalizing e with
  | zero => omega
  | succ steps ih =>
    -- each step goes to nodes with smaller numbers
    have hbelow : ∀ d ∈ (Canon.ofExpr e).children,
        ((m.coverFrom root steps d).found = [] ∧ (m.coverFrom root steps d).ambiguous = [] ↔
          ∀ c ∈ d.preorder, m.candidates c = []) := by
      intro d hd
      obtain ⟨s, hs, rfl⟩ := Canon.child_ofExpr hd
      have htag := he.tag_lt hs
      exact ih (he.of_mem hs.mem) (by omega)
    rw [coverFrom]
    cases hfound : m.candidates (Canon.ofExpr e) with
    | nil =>
      simp only
      rw [concat_empty_iff, Canon.preorder_eq, List.forall_mem_cons, List.forall_mem_map,
        List.forall_mem_flatMap]
      exact ⟨fun h => ⟨hfound, fun d hd => (hbelow d hd).mp (h d hd)⟩,
        fun h d hd => (hbelow d hd).mpr (h.2 d hd)⟩
    | cons top rest =>
      refine iff_of_false (fun h => ?_) fun h => ?_
      · simp only at h
        split at h
        · cases h.2
        · cases h.1
      · rw [h _ (Canon.mem_preorder_self _)] at hfound
        cases hfound

/-! ## Trees read from text -/

/-- **A cover tiles disjointly.** With any settings and for a tree that was read from text: what the
matches of a cover replace is disjoint, no two of them have the same root, and of each match all
that it replaces, and all that its registers are bound to, lies below its root, no register being
bound to a node that the match replaces. The cover is empty exactly if nothing can be selected. -/
theorem cover_tiles {config : RegistrySettings} {extensions : List Extension} {r : Registry}
    (hload : Registry.load config extensions = .ok r) (settings : MatchSettings) {vars : Typing}
    {text : String} {t : ExprTree} (htext : ExprTree.ofText vars text = .ok t) :
    ((Matcher.new r settings).cover t).found.Pairwise
        (fun a b => a.absorbed.Disjoint b.absorbed) ∧
      (((Matcher.new r settings).cover t).found.map Candidate.root).Nodup ∧
      (∀ cand ∈ ((Matcher.new r settings).cover t).found, ∃ q, t.node? cand.root = some q ∧
        cand.absorbed ⊆ q.tags ∧ ∀ name n, cand.binding? name = some (.value n) →
          n ∈ q.tags ∧ n ∉ cand.absorbed) ∧
      (((Matcher.new r settings).cover t).found = [] ∧
          ((Matcher.new r settings).cover t).ambiguous = [] ↔
        (Matcher.new r settings).select t = .ok none) := by
  have hassembled : t.Assembled := .read vars text htext
  have hindexed := hassembled.indexed
  have hord := hassembled.ordered hindexed.root_mem
  have htags := ExprTree.nodup_tags htext
  have hnodup : (Canon.ofExpr t.root).allAbsorbed.Nodup :=
    (Canon.absorbed_ofExpr hord).nodup_iff.mpr htags
  have htiled := tiled_coverFrom hload settings htags hnodup
    ((Canon.ofExpr t.root).source + 1) (Canon.mem_preorder_self _)
  -- a match is a candidate at the form of the node of its root
  have hmatch : ∀ cand ∈ ((Matcher.new r settings).cover t).found, ∃ q ∈ t.root.preorder,
      Canon.ofExpr q ∈ (Canon.ofExpr t.root).preorder ∧
        ∃ slots, Footprint (Canon.ofExpr q) cand slots := by
    intro cand hcand
    obtain ⟨c, hc, hmem⟩ := mem_coverFrom (Canon.mem_preorder_self _) hcand
    obtain ⟨q, hq, rfl⟩ := Canon.form_of_mem_preorder hc
    exact ⟨q, hq, hc, (footprint_of_mem hload ⟨q, rfl⟩ hmem).2⟩
  refine ⟨htiled.apart, ?_, fun cand hcand => ?_, ?_⟩
  · refine List.pairwise_map.mpr (htiled.apart.imp_of_mem fun {a b} ha hb hdisjoint heq => ?_)
    obtain ⟨q, -, -, slots, hfoot⟩ := hmatch a ha
    obtain ⟨q', -, -, slots', hfoot'⟩ := hmatch b hb
    exact hdisjoint hfoot.root_absorbed (heq ▸ hfoot'.root_absorbed)
  · obtain ⟨q, hq, hform, slots, hfoot⟩ := hmatch cand hcand
    have hregion := Canon.nodup_of_mem hnodup hform
    have hcomplete : (Canon.ofExpr q).allAbsorbed.Perm q.tags :=
      Canon.absorbed_ofExpr (hord.of_mem hq)
    refine ⟨q, ?_, fun n hn => hcomplete.mem_iff.mp (hfoot.inside hregion hn),
      fun name n hbound => ?_⟩
    · rw [hfoot.root, Canon.source, Canon.source_ofExpr]
      exact hindexed.node_of_mem (hindexed.mem_of_mem_preorder hindexed.root_mem hq)
    · obtain ⟨d, hd, hslot, rfl⟩ := node_of_binding hfoot hbound
      have hsource := (Canon.IsForm.of_mem ⟨q, rfl⟩ hd).source_mem
      exact ⟨hcomplete.mem_iff.mp (Canon.allAbsorbed_subset hd hsource),
        hfoot.disjoint_node hregion hslot hsource⟩
  · rw [select_eq_none_iff_preorder]
    refine coverFrom_empty_iff hord ?_
    rw [Canon.source, Canon.source_ofExpr]
    exact Nat.lt_succ_self _

/-- Two tiles: an accumulation that rounds, and below it the shifted sum that it starts from. -/
theorem cover_tiles_nested :
    ∃ r t, Registry.load {} [Bundled.xcorev] = .ok r ∧
      ExprTree.ofText (.ofList [("a", .u32), ("b", .u32), ("c", .u8), ("d", .u8)])
        "(((a + b) >> 3) + c * d + 4) >> 3" = .ok t ∧
      ((Matcher.new r {}).cover t).found.map Candidate.name = ["cv.macurn", "cv.addun"] ∧
      ((Matcher.new r {}).cover t).found.Pairwise (fun a b => a.absorbed.Disjoint b.absorbed) ∧
      (((Matcher.new r {}).cover t).found.map Candidate.root).Nodup := by
  have hrun : (Registry.load {} [Bundled.xcorev]).toOption.any (fun r =>
      (ExprTree.ofText (.ofList [("a", .u32), ("b", .u32), ("c", .u8), ("d", .u8)])
        "(((a + b) >> 3) + c * d + 4) >> 3").toOption.any fun t =>
          ((Matcher.new r {}).cover t).found.map Candidate.name = ["cv.macurn", "cv.addun"]) =
      true := by
    decide +kernel
  obtain ⟨r, hload, hany⟩ := Option.any_eq_true _ _ |>.mp hrun
  obtain ⟨t, htext, hnames⟩ := Option.any_eq_true _ _ |>.mp hany
  have hload := eq_ok_of_toOption hload
  have htext := eq_ok_of_toOption htext
  obtain ⟨hdisjoint, hroots, -⟩ := cover_tiles hload {} htext
  exact ⟨r, t, hload, htext, of_decide_eq_true hnames, hdisjoint, hroots⟩

end Matcher
end CustomIsa
