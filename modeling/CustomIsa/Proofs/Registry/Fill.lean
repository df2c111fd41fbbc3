import Mathlib.Data.List.Basic
import CustomIsa.Proofs.Foundations
import CustomIsa.Registry.Load
/-! # Filling the indexes

Every pass of loading fills an index next to the entries, and stops at the first entry that it
cannot enter: names while definitions are taken in, aliases in two rounds, shapes as templates are
compiled, rounding forms last. An index is described by its answers. A map of names gives the
positions of exactly the entries that have the name (`Registry.Indexes`), a table gives for every
shape the positions of the entries that have it, in load order (`Registry.Tabulated`), and the links
are between a form and the definition that it names (`Registry.Linked`). Each step of a pass keeps
the description of what has been filled so far. -/
namespace CustomIsa

/-- The shape of the template of an entry. -/
def Entry.shape? (e : Entry) : Option ShapeKey := e.template.bind Template.rootShape?

namespace Registry

/-! ## Positions -/

section
variable {es : List Entry} (hindexed : es.map Entry.index = List.range es.length)
include hindexed

/-- Where entries are numbered in order, an entry stands at its index. -/
theorem getElem?_iff_index {i : Nat} {e : Entry} : es[i]? = some e ↔ e ∈ es ∧ e.index = i := by
  have hindex : ∀ {j : Nat} {e' : Entry}, es[j]? = some e' → e'.index = j := by
    intro j e' hj
    have hmap : (es.map Entry.index)[j]? = some e'.index := by rw [List.getElem?_map, hj]; rfl
    obtain ⟨hlt, -⟩ := List.getElem?_eq_some_iff.mp hj
    rw [hindexed, List.getElem?_range hlt] at hmap
    exact (Option.some.inj hmap).symm
  constructor
  · intro h
    exact ⟨List.mem_of_getElem? h, hindex h⟩
  · rintro ⟨he, rfl⟩
    obtain ⟨j, hj⟩ := List.mem_iff_getElem?.mp he
    rw [hindex hj]
    exact hj

/-- An index belongs to one entry only. -/
theorem entry_eq_of_index {e e' : Entry} (he : e ∈ es) (he' : e' ∈ es)
    (hindex : e.index = e'.index) : e = e' := by
  have hat := (getElem?_iff_index hindexed).mpr ⟨he, rfl⟩
  have hat' := (getElem?_iff_index hindexed).mpr ⟨he', hindex.symm⟩
  exact Option.some.inj (hat.symm.trans hat')

end

/-! ## Maps of names -/

/-- The map gives the positions of exactly the entries that have a name, where `key` says which
name that is. -/
def Indexes (m : NameMap Nat) (key : Entry → Option String) (es : List Entry) : Prop :=
  ∀ name i, m.get? name = some i ↔ ∃ e ∈ es, key e = some name ∧ e.index = i

theorem indexes_nil (key : Entry → Option String) : Indexes {} key [] := by
  intro name i
  simp [EmptyCollection.emptyCollection]

namespace Indexes
variable {m : NameMap Nat} {key : Entry → Option String} {es es' : List Entry} {e : Entry}
  {name : String}

theorem of_mem_iff (h : Indexes m key es) (hmem : ∀ e, e ∈ es' ↔ e ∈ es) : Indexes m key es' := by
  intro name i
  simp only [h name i, hmem]

/-- Entries may change in what is neither their name nor their index. -/
theorem of_map_eq (h : Indexes m key es)
    (hsame : es'.map (fun e => (key e, e.index)) = es.map fun e => (key e, e.index)) :
    Indexes m key es' := by
  have hmem : ∀ {xs : List Entry} {name i}, (∃ e ∈ xs, key e = some name ∧ e.index = i) ↔
      (some name, i) ∈ xs.map fun e => (key e, e.index) := by
    simp
  intro name i
  rw [h name i, hmem, hmem, hsame]

theorem contains_iff (h : Indexes m key es) : m.contains name = true ↔ name ∈ es.filterMap key := by
  rw [NameMap.contains, Option.isSome_iff_exists, List.mem_filterMap]
  simp only [h name]
  exact ⟨fun ⟨_, e, he, hkey, _⟩ => ⟨e, he, hkey⟩, fun ⟨e, he, hkey⟩ => ⟨_, e, he, hkey, rfl⟩⟩

theorem cons_none_iff (hkey : key e = none) : Indexes m key (e :: es) ↔ Indexes m key es := by
  refine forall_congr' fun name => forall_congr' fun i => ?_
  simp [hkey]

/-- An entry with a name that is new is entered under it. -/
theorem insert (h : Indexes m key es) (hkey : key e = some name) (hnew : m.contains name = false) :
    Indexes (m.insert name e.index) key (e :: es) := by
  intro other i
  rw [NameMap.get?_insert]
  by_cases hother : other = name
  · subst hother
    rw [if_pos rfl, Option.some.injEq]
    constructor
    · rintro rfl
      exact ⟨e, List.mem_cons_self, hkey, rfl⟩
    · rintro ⟨e', he', hkey', rfl⟩
      rcases List.mem_cons.mp he' with rfl | he'
      · rfl
      · have hold := h.contains_iff.mpr (List.mem_filterMap.mpr ⟨e', he', hkey'⟩)
        cases hnew.symm.trans hold
  · rw [if_neg hother, h other i]
    constructor
    · rintro ⟨e', he', hfound⟩
      exact ⟨e', List.mem_cons_of_mem _ he', hfound⟩
    · rintro ⟨e', he', hkey', hindex⟩
      rcases List.mem_cons.mp he' with rfl | he'
      · exact absurd (Option.some.inj (hkey'.symm.trans hkey)) hother
      · exact ⟨e', he', hkey', hindex⟩

section
variable (h : Indexes m key es) (hindexed : es.map Entry.index = List.range es.length)
include h hindexed

/-- **What is looked up through a map is the entry that has the name.** -/
theorem lookup_eq_some_iff :
    (m.get? name).bind (es[·]?) = some e ↔ e ∈ es ∧ key e = some name := by
  rw [Option.bind_eq_some_iff]
  simp only [h name, getElem?_iff_index hindexed]
  constructor
  · rintro ⟨i, ⟨e', he', hkey, hindex⟩, he, rfl⟩
    rw [entry_eq_of_index hindexed he' he hindex] at hkey
    exact ⟨he, hkey⟩
  · rintro ⟨he, hkey⟩
    exact ⟨e.index, ⟨e, he, hkey, rfl⟩, he, rfl⟩

/-- A name belongs to one entry only. -/
theorem eq_of_key {e' : Entry} (he : e ∈ es) (he' : e' ∈ es) (hkey : key e = some name)
    (hkey' : key e' = some name) : e = e' := by
  have hfound := (h.lookup_eq_some_iff hindexed).mpr ⟨he, hkey⟩
  have hfound' := (h.lookup_eq_some_iff hindexed).mpr ⟨he', hkey'⟩
  exact Option.some.inj (hfound.symm.trans hfound')

end

end Indexes

/-! ## Aliases -/

/-- Of values that are entered one after another, the first may go with those before. -/
theorem nodup_apart_cons_iff {α : Type} {a : α} {done xs : List α} (hnew : a ∉ done) :
    (xs.Nodup ∧ ∀ x ∈ xs, x ∉ a :: done) ↔ (a :: xs).Nodup ∧ ∀ x ∈ a :: xs, x ∉ done := by
  simp only [List.nodup_cons, List.mem_cons, not_or, forall_eq_or_imp]
  constructor
  · rintro ⟨hnodup, hapart⟩
    exact ⟨⟨fun hmem => (hapart a hmem).1 rfl, hnodup⟩, hnew, fun x hx => (hapart x hx).2⟩
  · rintro ⟨⟨ha, hnodup⟩, -, hapart⟩
    refine ⟨hnodup, fun x hx => ⟨?_, hapart x hx⟩⟩
    rintro rfl
    exact ha hx

section
variable {m m' : NameMap Nat} {done es : List Entry}

/-- Declared aliases are entered one after another. -/
theorem indexes_declareAliases (h : Indexes m Entry.alias done)
    (hok : declareAliases m es = .ok m') : Indexes m' Entry.alias (done ++ es) := by
  induction es generalizing m done with
  | nil =>
    obtain rfl := Except.ok.inj hok
    rwa [List.append_nil]
  | cons e es ih =>
    have hmem : ∀ x, x ∈ done ++ e :: es ↔ x ∈ (e :: done) ++ es := fun x =>
      List.perm_middle.mem_iff
    rw [declareAliases] at hok
    split at hok
    · rename_i halias
      exact (ih ((Indexes.cons_none_iff halias).mpr h) hok).of_mem_iff hmem
    · rename_i name halias
      split at hok
      · cases hok
      · rename_i hnew
        exact (ih (h.insert halias (Bool.eq_false_iff.mpr hnew)) hok).of_mem_iff hmem

/-- All aliases are entered exactly if they are new and apart. -/
theorem declareAliases_ok_iff (h : Indexes m Entry.alias done) :
    (∃ m', declareAliases m es = .ok m') ↔ (es.filterMap Entry.alias).Nodup ∧
      ∀ name ∈ es.filterMap Entry.alias, name ∉ done.filterMap Entry.alias := by
  induction es generalizing m done with
  | nil => simp [declareAliases]
  | cons e es ih =>
    rw [declareAliases]
    cases halias : e.alias with
    | none =>
      simp only [List.filterMap_cons_none halias]
      rw [ih ((Indexes.cons_none_iff halias).mpr h), List.filterMap_cons_none halias]
    | some name =>
      simp only [List.filterMap_cons_some halias]
      by_cases hold : m.contains name = true
      · simp only [hold]
        refine iff_of_false (by simp) ?_
        rintro ⟨-, hapart⟩
        exact hapart name List.mem_cons_self (h.contains_iff.mp hold)
      · have hnew : name ∉ done.filterMap Entry.alias := fun hmem =>
          hold (h.contains_iff.mpr hmem)
        simp only [hold]
        rw [if_neg Bool.false_ne_true, ih (h.insert halias (Bool.eq_false_iff.mpr hold)),
          List.filterMap_cons_some halias]
        exact nodup_apart_cons_iff hnew

theorem alias_of_wantsAlias {e : Entry} (h : wantsAlias e = true) : e.alias = none := by
  rw [wantsAlias, Bool.and_eq_true, Bool.and_eq_true] at h
  exact Option.isNone_iff_eq_none.mp h.1.1

/-- An alias that is generated is entered next to all declared ones, which keep their entries. -/
theorem indexes_generateAliases {stem : String} (h : Indexes m Entry.alias (done ++ es)) :
    Indexes (generateAliases stem m es).byAlias Entry.alias
      (done ++ (generateAliases stem m es).entries) := by
  induction es generalizing m done with
  | nil => exact h
  | cons e es ih =>
    rw [generateAliases]
    dsimp only
    split
    · rename_i hwants
      have hrest : Indexes m Entry.alias (done ++ es) :=
        (Indexes.cons_none_iff (alias_of_wantsAlias hwants.1)).mp
          (h.of_mem_iff fun x => List.perm_middle.symm.mem_iff)
      have hnext := hrest.insert (e := { e with «alias» := some (generatedAlias stem e) }) rfl
        hwants.2
      rw [← List.cons_append] at hnext
      exact (ih hnext).of_mem_iff fun x => List.perm_middle.mem_iff
    · have hnext : Indexes m Entry.alias ((e :: done) ++ es) :=
        h.of_mem_iff fun x => List.perm_middle.symm.mem_iff
      exact (ih hnext).of_mem_iff fun x => List.perm_middle.mem_iff

end

section
variable {settings : RegistrySettings} {es : List Entry} {a : Aliased}

theorem assignAliases_eq_ok (h : assignAliases settings es = .ok a) :
    ∃ m, declareAliases {} es = .ok m ∧
      a = if settings.autoIntrinsics then generateAliases settings.aliasPrefix m es
        else ⟨es, m, 0⟩ := by
  obtain ⟨m, hm, heq⟩ := map_eq_ok h
  exact ⟨m, hm, heq.symm⟩

/-- **After both rounds the map of aliases gives the positions of the entries that have one.** -/
theorem indexes_assignAliases (h : assignAliases settings es = .ok a) :
    Indexes a.byAlias Entry.alias a.entries := by
  obtain ⟨m, hm, rfl⟩ := assignAliases_eq_ok h
  have hdeclared := indexes_declareAliases (indexes_nil _) hm
  split
  · exact (indexes_generateAliases hdeclared :)
  · exact hdeclared

theorem assignAliases_ok_iff (settings : RegistrySettings) :
    (∃ a, assignAliases settings es = .ok a) ↔ (es.filterMap Entry.alias).Nodup := by
  have hdeclared : (∃ m, declareAliases {} es = .ok m) ↔ _ :=
    declareAliases_ok_iff (indexes_nil Entry.alias)
  rw [List.filterMap_nil] at hdeclared
  constructor
  · rintro ⟨a, h⟩
    obtain ⟨m, hm, -⟩ := assignAliases_eq_ok h
    exact (hdeclared.mp ⟨m, hm⟩).1
  · intro hnodup
    obtain ⟨m, hm⟩ := hdeclared.mpr ⟨hnodup, fun _ _ => List.not_mem_nil⟩
    rw [assignAliases, hm]
    exact ⟨_, rfl⟩

end

/-! ## Shapes -/

theorem candidates_insert (t : ShapeTable) (key : ShapeKey) (position : Nat) (other : ShapeKey) :
    (t.insert key position).candidates other =
      t.candidates other ++ if other = key then [position] else [] := by
  rw [ShapeTable.candidates, ShapeTable.candidates, ShapeTable.insert]
  induction t.rows with
  | nil =>
    rw [ShapeTable.insertRow, NameMap.lookup_cons]
    split <;> rfl
  | cons row rows ih =>
    rw [ShapeTable.insertRow]
    split
    · rename_i hrow
      rw [NameMap.lookup_cons, NameMap.lookup_cons, hrow]
      split
      · rfl
      · rw [List.append_nil]
    · rename_i hrow
      rw [NameMap.lookup_cons, NameMap.lookup_cons]
      split
      · rename_i hother
        rw [if_neg (hother ▸ hrow), List.append_nil]
      · exact ih

/-- The table gives for every shape the positions of the entries that have it, in load order, and
the count is that of the templates. -/
structure Tabulated (s : Templates) (es : List Entry) : Prop where
  shapes : ∀ key, s.table.candidates key = (es.filter (·.shape? = some key)).map Entry.index
  count : s.count = es.countP (·.template.isSome)

theorem tabulated_nil : Tabulated {} [] := ⟨fun _ => rfl, rfl⟩

/-- What it takes to compile an entry: it has no template, or one that compiles and has a shape. -/
theorem compileEntry_eq_ok {s s' : Templates} {e e' : Entry}
    (h : compileEntry s e = .ok (e', s')) :
    (e.definition.template = none ∧ e' = e ∧ s' = s) ∨
      ∃ text t key, e.definition.template = some text ∧ Template.ofText e.definition text = .ok t ∧
        t.rootShape? = some key ∧ e' = { e with template := some t } ∧
          s' = ⟨s.table.insert key e.index, s.count + 1⟩ := by
  rw [compileEntry] at h
  split at h
  · rename_i htext
    obtain ⟨rfl, rfl⟩ := Prod.mk.inj (Except.ok.inj h)
    exact .inl ⟨htext, rfl, rfl⟩
  · rename_i text htext
    split at h
    · cases h
    · rename_i t ht
      split at h
      · cases h
      · rename_i key hkey
        obtain ⟨rfl, rfl⟩ := Prod.mk.inj (Except.ok.inj h)
        exact .inr ⟨text, t, key, htext, ht, (Option.filter_eq_some_iff.mp hkey).1, rfl, rfl⟩

theorem compileEntries_cons {s s' : Templates} {e : Entry} {es es' : List Entry}
    (h : compileEntries s (e :: es) = .ok (es', s')) :
    ∃ first between rest, compileEntry s e = .ok (first, between) ∧
      compileEntries between es = .ok (rest, s') ∧ es' = first :: rest := by
  obtain ⟨⟨first, between⟩, hfirst, hbind⟩ := bind_eq_ok h
  obtain ⟨⟨rest, last⟩, hrest, hpure⟩ := bind_eq_ok hbind
  obtain ⟨rfl, rfl⟩ := Prod.mk.inj (Except.ok.inj hpure)
  exact ⟨first, between, rest, hfirst, hrest, rfl⟩

theorem Tabulated.compileEntry {s s' : Templates} {done : List Entry} {e e' : Entry}
    (h : Tabulated s done) (hbare : e.template = none) (hok : compileEntry s e = .ok (e', s')) :
    Tabulated s' (done ++ [e']) := by
  obtain ⟨-, rfl, rfl⟩ | ⟨text, t, key, -, -, hkey, rfl, rfl⟩ := compileEntry_eq_ok hok
  · refine ⟨fun key => ?_, ?_⟩
    · rw [h.shapes key, List.filter_append, List.filter_cons_of_neg (by simp [Entry.shape?, hbare]),
        List.filter_nil, List.append_nil]
    · rw [h.count, List.countP_append, List.countP_cons_of_neg (by simp [hbare]), List.countP_nil,
        Nat.add_zero]
  · refine ⟨fun other => ?_, ?_⟩
    · rw [candidates_insert, h.shapes other, List.filter_append, List.map_append]
      by_cases hother : other = key
      · rw [if_pos hother, List.filter_cons_of_pos (by simp [Entry.shape?, hkey, hother])]
        rfl
      · rw [if_neg hother, List.filter_cons_of_neg (by simp [Entry.shape?, hkey, Ne.symm hother])]
        rfl
    · rw [h.count, List.countP_append]
      rfl

/-- **As templates are compiled, the table takes up all of them.** -/
theorem Tabulated.compileEntries {s s' : Templates} {done es es' : List Entry}
    (h : Tabulated s done) (hbare : ∀ e ∈ es, e.template = none)
    (hok : compileEntries s es = .ok (es', s')) : Tabulated s' (done ++ es') := by
  induction es generalizing s done es' with
  | nil =>
    obtain ⟨rfl, rfl⟩ := Prod.mk.inj (Except.ok.inj hok)
    rwa [List.append_nil]
  | cons e es ih =>
    obtain ⟨first, between, rest, hfirst, hrest, rfl⟩ := compileEntries_cons hok
    obtain ⟨he, hes⟩ := List.forall_mem_cons.mp hbare
    rw [List.append_cons]
    exact ih (h.compileEntry he hfirst) hes hrest

/-! ## Rounding forms -/

/-- The entry may be the rounding form of the one named `base`: it has no template of its own, and
the base has one, and the same operands. -/
def Rounds (all : List Entry) (e : Entry) (base : String) : Prop :=
  e.definition.template = none ∧ ∃ b ∈ all, b.name = base ∧
    b.template.isSome = true ∧ b.definition.operands = e.definition.operands

/-- The links are those between the forms among `es` and the entries that they name, in increasing
order of the positions of the latter. -/
structure Linked (all es : List Entry) (links : List (Nat × Nat)) : Prop where
  sorted : links.Pairwise fun x y => x.1 < y.1
  mem_iff : ∀ i j, (i, j) ∈ links ↔ ∃ base ∈ all, ∃ e ∈ es,
    e.roundingBase? = some base.name ∧ base.index = i ∧ e.index = j

theorem linked_nil (all : List Entry) : Linked all [] [] := ⟨.nil, by simp⟩

namespace Linked
variable {all done : List Entry} {links : List (Nat × Nat)} {e : Entry}

theorem nodup (h : Linked all done links) : (links.map Prod.fst).Nodup :=
  List.pairwise_map.mpr (h.sorted.imp Nat.ne_of_lt)

theorem lookup_eq_some_iff (h : Linked all done links) {i j : Nat} :
    links.lookup i = some j ↔ (i, j) ∈ links :=
  ⟨NameMap.mem_of_lookup, NameMap.lookup_of_mem h.nodup⟩

theorem cons_none (h : Linked all done links) (hbase : e.roundingBase? = none) :
    Linked all (e :: done) links := by
  refine ⟨h.sorted, fun i j => ?_⟩
  rw [h.mem_iff]
  simp [hbase]

/-- An entry is free for a link exactly if no form before names it. -/
theorem lookup_eq_none_iff (h : Linked all done links)
    (hindexed : all.map Entry.index = List.range all.length) {b : Entry} (hb : b ∈ all) :
    links.lookup b.index = none ↔ b.name ∉ done.filterMap Entry.roundingBase? := by
  rw [NameMap.lookup_eq_none_iff, not_iff_not, List.mem_map, List.mem_filterMap]
  constructor
  · rintro ⟨⟨i, j⟩, hmem, rfl⟩
    obtain ⟨base, hbase, e, he, hname, hindex, -⟩ := (h.mem_iff _ _).mp hmem
    rw [entry_eq_of_index hindexed hbase hb hindex] at hname
    exact ⟨e, he, hname⟩
  · rintro ⟨e, he, hname⟩
    exact ⟨(b.index, e.index), (h.mem_iff _ _).mpr ⟨b, hb, e, he, hname, rfl, rfl⟩, rfl⟩

section
variable {byName : NameMap Nat} (hnames : Indexes byName (fun e => some e.name) all)
  (hindexed : all.map Entry.index = List.range all.length)
include hnames hindexed

/-- A new link is put in its place. -/
theorem insert (h : Linked all done links) {b : Entry} (hb : b ∈ all)
    (hname : e.roundingBase? = some b.name) (hfree : links.lookup b.index = none) :
    Linked all (e :: done)
      (Sorting.insert (fun x y => x.1 ≤ y.1) (b.index, e.index) links) := by
  have hperm := Sorting.insert_perm (fun x y : Nat × Nat => x.1 ≤ y.1) (b.index, e.index) links
  refine ⟨?_, fun i j => ?_⟩
  · have hle : List.Pairwise (fun x y : Nat × Nat => decide (x.1 ≤ y.1) = true) _ :=
      Sorting.pairwise_insert (fun x y => by simp only [decide_eq_true_eq]; omega)
        (fun x y z => by simp only [decide_eq_true_eq]; omega) (b.index, e.index)
        (h.sorted.imp fun hlt => decide_eq_true (Nat.le_of_lt hlt))
    have hne : ((Sorting.insert (fun x y : Nat × Nat => x.1 ≤ y.1) (b.index, e.index) links).map
        Prod.fst).Nodup := by
      rw [(hperm.map Prod.fst).nodup_iff, List.map_cons, List.nodup_cons]
      exact ⟨(NameMap.lookup_eq_none_iff _ _).mp hfree, h.nodup⟩
    exact (hle.and (List.pairwise_map.mp hne)).imp fun ⟨hxy, hdiffer⟩ =>
      Nat.lt_of_le_of_ne (of_decide_eq_true hxy) hdiffer
  · rw [hperm.mem_iff, List.mem_cons, h.mem_iff]
    constructor
    · rintro (heq | ⟨base, hbase, e', he', hfound⟩)
      · obtain ⟨rfl, rfl⟩ := Prod.mk.inj heq
        exact ⟨b, hb, e, List.mem_cons_self, hname, rfl, rfl⟩
      · exact ⟨base, hbase, e', List.mem_cons_of_mem _ he', hfound⟩
    · rintro ⟨base, hbase, e', he', hname', rfl, rfl⟩
      rcases List.mem_cons.mp he' with rfl | he'
      · have hsame := Option.some.inj (hname'.symm.trans hname)
        rw [hnames.eq_of_key hindexed hbase hb (congrArg some hsame) rfl]
        exact .inl rfl
      · exact .inr ⟨base, hbase, e', he', hname', rfl, rfl⟩

/-- What it takes to link a form: it may round the entry that it names, which is free. -/
theorem link_eq_ok_iff {links' : List (Nat × Nat)} {base : String} :
    link all byName links e base = .ok links' ↔
      e.definition.template = none ∧ ∃ b ∈ all, b.name = base ∧ b.template.isSome = true ∧
        b.definition.operands = e.definition.operands ∧ links.lookup b.index = none ∧
        links' = Sorting.insert (fun x y => x.1 ≤ y.1) (b.index, e.index) links := by
  rw [link]
  cases htemplate : e.definition.template with
  | some text => simp
  | none =>
    rw [if_neg (by simp)]
    simp only [true_and]
    cases hfound : (byName.get? base).bind (all[·]?) with
    | none =>
      refine iff_of_false (by simp) ?_
      rintro ⟨b, hb, hname, -⟩
      cases hfound.symm.trans ((hnames.lookup_eq_some_iff hindexed).mpr ⟨hb, congrArg some hname⟩)
    | some b =>
      obtain ⟨hb, hname⟩ := (hnames.lookup_eq_some_iff hindexed).mp hfound
      have hname := Option.some.inj hname
      have hunique : ∀ {p : Entry → Prop}, (∃ b' ∈ all, b'.name = base ∧ p b') ↔ p b := by
        intro p
        constructor
        · rintro ⟨b', hb', hname', hp⟩
          rwa [hnames.eq_of_key hindexed hb' hb (congrArg some hname') (congrArg some hname)] at hp
        · exact fun hp => ⟨b, hb, hname, hp⟩
      rw [hunique]
      cases hown : b.template with
      | none => simp [hown]
      | some t =>
        by_cases hoperands : b.definition.operands = e.definition.operands
        · cases hfree : links.lookup b.index with
          | none =>
            simp only [hown, hoperands, hfree, Option.isNone_some, Option.isSome_none, ne_eq,
              not_true, Bool.false_eq_true, if_false, Except.ok.injEq, Option.isSome_some, true_and]
            exact eq_comm
          | some j => simp [hown, hoperands, hfree]
        · simp [hown, hoperands]

/-- **As rounding forms are linked, the links are those between forms and the entries that they
name.** -/
theorem linkAll {links' : List (Nat × Nat)} {es : List Entry} (h : Linked all done links)
    (hok : linkAll all byName links es = .ok links') : Linked all (done ++ es) links' := by
  induction es generalizing links done with
  | nil =>
    obtain rfl := Except.ok.inj hok
    rwa [List.append_nil]
  | cons e es ih =>
    have hmem : ∀ x, x ∈ (e :: done) ++ es ↔ x ∈ done ++ e :: es := fun x =>
      List.perm_middle.symm.mem_iff
    have hnext : ∀ {next}, Linked all (e :: done) next →
        Registry.linkAll all byName next es = .ok links' → Linked all (done ++ e :: es) links' := by
      intro next hstep hrest
      obtain ⟨hsorted, hlinks⟩ := ih hstep hrest
      refine ⟨hsorted, fun i j => ?_⟩
      simp only [hlinks, hmem]
    rw [Registry.linkAll] at hok
    split at hok
    · rename_i hbase
      exact hnext (h.cons_none hbase) hok
    · rename_i base hbase
      split at hok
      · cases hok
      · rename_i next hlink
        obtain ⟨-, b, hb, rfl, -, -, hfree, rfl⟩ := (link_eq_ok_iff hnames hindexed).mp hlink
        exact hnext (h.insert hnames hindexed hb hbase hfree) hok

/-- All forms are linked exactly if each may round the entry that it names, and no two name the
same. -/
theorem linkAll_ok_iff {es : List Entry} (h : Linked all done links) :
    (∃ links', Registry.linkAll all byName links es = .ok links') ↔
      (∀ e ∈ es, ∀ base, e.roundingBase? = some base → Rounds all e base) ∧
        (es.filterMap Entry.roundingBase?).Nodup ∧
          ∀ base ∈ es.filterMap Entry.roundingBase?, base ∉ done.filterMap Entry.roundingBase? := by
  induction es generalizing links done with
  | nil => simp [Registry.linkAll]
  | cons e es ih =>
    rw [Registry.linkAll, List.forall_mem_cons]
    cases hbase : e.roundingBase? with
    | none =>
      simp only [List.filterMap_cons_none hbase]
      rw [ih (h.cons_none hbase), List.filterMap_cons_none hbase]
      simp
    | some base =>
      simp only [List.filterMap_cons_some hbase, Option.some.injEq, forall_eq']
      cases hlink : link all byName links e base with
      | error fault =>
        refine iff_of_false (by simp) ?_
        rintro ⟨⟨⟨hnone, b, hb, rfl, htemplate, hoperands⟩, -⟩, -, hapart⟩
        have hfree := (h.lookup_eq_none_iff hindexed hb).mpr (hapart _ List.mem_cons_self)
        cases hlink.symm.trans ((link_eq_ok_iff hnames hindexed).mpr
          ⟨hnone, b, hb, rfl, htemplate, hoperands, hfree, rfl⟩)
      | ok next =>
        obtain ⟨hnone, b, hb, rfl, htemplate, hoperands, hfree, rfl⟩ :=
          (link_eq_ok_iff hnames hindexed).mp hlink
        have hrounds : Rounds all e b.name := ⟨hnone, b, hb, rfl, htemplate, hoperands⟩
        have hnew := (h.lookup_eq_none_iff hindexed hb).mp hfree
        simp only
        rw [ih (h.insert hnames hindexed hb hbase hfree), List.filterMap_cons_some hbase,
          nodup_apart_cons_iff hnew]
        simp only [hrounds, true_and]

end

end Linked

/-! ## Rows for decoding -/

/-- The rows are those of the entries in decode order. -/
theorem decodeRowsOf_eq {es : List Entry} (hindexed : es.map Entry.index = List.range es.length) :
    decodeRowsOf es = (Sorting.sort Entry.decodesBefore es).map Entry.decodeRow := by
  rw [decodeRowsOf, Sorting.sort_map]
  congr 1
  refine Sorting.sort_congr fun a ha b hb => ?_
  have hrow : ∀ e ∈ es, es[e.decodeRow.position]? = some e := fun e he =>
    (getElem?_iff_index hindexed).mpr ⟨he, rfl⟩
  rw [rowBefore, hrow a ha, hrow b hb]

end Registry
end CustomIsa
