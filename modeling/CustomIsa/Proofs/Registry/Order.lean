import Mathlib.Data.List.Forall2
import Mathlib.Data.List.Perm.Basic
import CustomIsa.Proofs.Registry.Declared
import CustomIsa.Proofs.Registry.Specificity
/-! # The order of declaration

Extensions may be listed in another order, and so may the instructions within each of them
(`Extension.Rearranged`). The declarations are then the same in another order, and none of the rules
for loading depends on it (`Registry.load_ok_iff_of_rearranged`). Registries with the same
declarations (`Registry.SameDeclarations`) may number and alias their entries differently, but they
encode and decode alike: a word belongs to its most specific definition, and the definition that a
word is encoded with is told from others by its name. -/
namespace CustomIsa

/-- The same extension with its instructions in another order. -/
structure Extension.Shuffled (x y : Extension) : Prop where
  label : x.label = y.label
  title : x.title = y.title
  instructions : x.instructions.Perm y.instructions

/-- The same extensions in another order, each with its instructions in another order. -/
def Extension.Rearranged (xs ys : List Extension) : Prop :=
  ∃ zs, xs.Perm zs ∧ List.Forall₂ Extension.Shuffled zs ys

namespace Registry

/-! ## Loading -/

section
variable {xs ys : List Extension} (h : Extension.Rearranged xs ys)
include h

theorem labels_of_rearranged : (xs.map Extension.label).Perm (ys.map Extension.label) := by
  obtain ⟨zs, hperm, hshuffled⟩ := h
  have heq : zs.map Extension.label = ys.map Extension.label := by
    induction hshuffled generalizing xs with
    | nil => rfl
    | cons hfirst _ ih => rw [List.map_cons, List.map_cons, hfirst.label, ih (.refl _)]
  rw [← heq]
  exact hperm.map _

/-- Rearranged extensions declare the same, in another order. -/
theorem declared_of_rearranged (xlen : Nat) : (declared xlen xs).Perm (declared xlen ys) := by
  obtain ⟨zs, hperm, hshuffled⟩ := h
  have hstep : (declared xlen zs).Perm (declared xlen ys) := by
    induction hshuffled generalizing xs with
    | nil => exact .refl _
    | @cons x y zs ys hfirst _ ih =>
      have hlist : (declaredBy xlen x.label x.instructions).Perm
          (declaredBy xlen y.label y.instructions) := by
        unfold declaredBy
        rw [hfirst.label]
        exact (hfirst.instructions.filter _).map _
      rw [declared_cons, declared_cons]
      exact hlist.append (ih (.refl _))
  exact (hperm.flatMap_right _).trans hstep

end

theorem clash_comm (a b : Definition) : clash a b = clash b a := by
  have hsize : decide (a.wordSize = b.wordSize) = decide (b.wordSize = a.wordSize) :=
    decide_eq_decide.mpr eq_comm
  have hfree : decide (a.freeBits = b.freeBits) = decide (b.freeBits = a.freeBits) :=
    decide_eq_decide.mpr eq_comm
  unfold clash
  rw [hsize, hfree, Nat.xor_comm, Nat.and_comm a.layout.mask]

/-- The rules for loading speak of labels and declarations in whatever order. -/
theorem Loadable.of_perm {settings : RegistrySettings} {xs ys : List Extension}
    (h : Loadable settings xs) (hlabels : (xs.map Extension.label).Perm (ys.map Extension.label))
    (hperm : (declared settings.xlen xs).Perm (declared settings.xlen ys)) :
    Loadable settings ys := by
  have hmem : ∀ {p}, p ∈ declared settings.xlen ys → p ∈ declared settings.xlen xs :=
    fun hp => hperm.mem_iff.mpr hp
  refine ⟨h.xlen, ?_, fun p hp => h.checked p (hmem hp), (hperm.map _).nodup_iff.mp h.named,
    (hperm.filterMap _).nodup_iff.mp h.aliases, ?_, fun p hp => h.compiles p (hmem hp), ?_,
    (hperm.filterMap _).nodup_iff.mp h.variants⟩
  · intro y hy
    have hlabel := hlabels.mem_iff.mpr (List.mem_map_of_mem hy)
    obtain ⟨x, hx, heq⟩ := List.mem_map.mp hlabel
    rw [← heq]
    exact h.labels x hx
  · exact (hperm.pairwise_iff fun hclash => (clash_comm _ _).trans hclash).mp h.apart
  · intro p hp base hbase
    obtain ⟨hnone, q, hq, hrest⟩ := h.rounds p (hmem hp) base hbase
    exact ⟨hnone, q, hperm.mem_iff.mp hq, hrest⟩

/-- **Whether extensions can be loaded does not depend on their order.** -/
theorem load_ok_iff_of_rearranged {xs ys : List Extension} (h : Extension.Rearranged xs ys)
    (settings : RegistrySettings) :
    (∃ r, load settings xs = .ok r) ↔ ∃ r, load settings ys = .ok r := by
  have hlabels := labels_of_rearranged h
  have hperm := declared_of_rearranged h settings.xlen
  rw [load_ok_iff, load_ok_iff]
  exact ⟨fun hx => hx.of_perm hlabels hperm, fun hy => hy.of_perm hlabels.symm hperm.symm⟩

/-! ## Registries with the same declarations -/

/-- Searches of which each finds a counterpart of what the other finds have the same result. -/
theorem map_eq_map_of_counterpart {α β γ : Type} {x : Option α} {y : Option β} {f : α → γ}
    {g : β → γ} (hx : ∀ a, x = some a → ∃ b, y = some b ∧ g b = f a)
    (hy : ∀ b, y = some b → ∃ a, x = some a ∧ f a = g b) : x.map f = y.map g := by
  cases x with
  | some a =>
    obtain ⟨b, rfl, heq⟩ := hx a rfl
    rw [Option.map_some, Option.map_some, heq]
  | none =>
    cases y with
    | none => rfl
    | some b =>
      obtain ⟨a, ha, -⟩ := hy b rfl
      cases ha

/-- Registries that were loaded for one target and hold the same declarations. -/
structure SameDeclarations (r r' : Registry) : Prop where
  loaded : r.Loaded
  loaded' : r'.Loaded
  xlen : r.xlen = r'.xlen
  perm : (r.entries.map Entry.declaration).Perm (r'.entries.map Entry.declaration)

theorem sameDeclarations_of_load {settings : RegistrySettings} {xs ys : List Extension}
    (h : Extension.Rearranged xs ys) {r r' : Registry} (hload : load settings xs = .ok r)
    (hload' : load settings ys = .ok r') : r.SameDeclarations r' := by
  refine ⟨loaded_of_load hload, loaded_of_load hload', ?_, ?_⟩
  · rw [xlen_of_load hload, xlen_of_load hload']
  · rw [map_declaration_of_load hload, map_declaration_of_load hload']
    exact declared_of_rearranged h settings.xlen

namespace SameDeclarations
variable {r r' : Registry} (h : r.SameDeclarations r')
include h

theorem symm : r'.SameDeclarations r := ⟨h.loaded', h.loaded, h.xlen.symm, h.perm.symm⟩

/-- Every entry has a counterpart that is declared alike. -/
theorem counterpart {e : Entry} (he : e ∈ r.entries) :
    ∃ e' ∈ r'.entries, e'.declaration = e.declaration :=
  List.mem_map.mp (h.perm.mem_iff.mp (List.mem_map_of_mem he))

theorem perm_pairs : (r.entries.map fun e => (e.label, e.definition)).Perm
    (r'.entries.map fun e => (e.label, e.definition)) := by
  have hmap := h.perm.map fun p : Declaration => (p.label, p.definition)
  rw [List.map_map, List.map_map] at hmap
  exact hmap

theorem decode_eq (w : Word) :
    (r.decode w).map (fun d => (d.entry.name, d.bindings)) =
      (r'.decode w).map fun d => (d.entry.name, d.bindings) := by
  have heq := h.loaded.decode_eq_of_perm h.loaded' h.perm_pairs w
  have hmap := congrArg (Except.map fun d : String × Definition × Bindings => (d.1, d.2.2)) heq
  cases hdecode : r.decode w <;> cases hdecode' : r'.decode w <;> rw [hdecode, hdecode'] at hmap <;>
    exact hmap

/-- The definition of a word is declared alike in both registries. -/
theorem lookup?_eq (w : Word) :
    (r.lookup? w).map Entry.declaration = (r'.lookup? w).map Entry.declaration := by
  have hfound : ∀ {s s' : Registry}, s.SameDeclarations s' → ∀ {e}, s.lookup? w = some e →
      ∃ e', s'.lookup? w = some e' ∧ e'.declaration = e.declaration := by
    intro s s' hs e hlookup
    have hspec := hs.loaded.lookup?_eq_some_iff.mp hlookup
    obtain ⟨e', hspec', hlabel, hdef⟩ := hspec.of_perm hs.loaded' hs.perm_pairs
    refine ⟨e', hs.loaded'.lookup?_eq_some_iff.mpr hspec', ?_⟩
    rw [Entry.declaration, Entry.declaration, hlabel, hdef]
  exact map_eq_map_of_counterpart (fun _ => hfound h) fun _ => hfound h.symm

end SameDeclarations

/-- In a loaded registry, entries have the same index exactly if they have the same name. -/
theorem Loaded.index_eq_iff {r : Registry} (hr : r.Loaded) {e e' : Entry} (he : e ∈ r.entries)
    (he' : e' ∈ r.entries) : e.index = e'.index ↔ e.name = e'.name := by
  constructor
  · intro hindex
    rw [hr.eq_of_index he he' hindex]
  · intro hname
    rw [List.inj_on_of_nodup_map hr.wellFormed.named he he' hname]

namespace SameDeclarations
variable {r r' : Registry} (h : r.SameDeclarations r')
include h

/-- Entries that are declared alike encode the same words, and fail alike. -/
theorem encode_eq {e e' : Entry} (he : e ∈ r.entries) (he' : e' ∈ r'.entries)
    (hdecl : e'.declaration = e.declaration) (b : Bindings) : r'.encode e' b = r.encode e b := by
  have hdef : e'.definition = e.definition := congrArg Declaration.definition hdecl
  have hname : e'.name = e.name := congrArg Declaration.name hdecl
  unfold encode
  rw [hdef]
  cases Codec.encode e.definition b with
  | error f => rfl
  | ok w =>
    have hlookup := h.lookup?_eq w
    cases hfound : r.lookup? w with
    | none =>
      rw [hfound, Option.map_none, eq_comm, Option.map_eq_none_iff] at hlookup
      simp only [hfound, hlookup]
    | some winner =>
      rw [hfound, Option.map_some, eq_comm, Option.map_eq_some_iff] at hlookup
      obtain ⟨winner', hfound', hsame⟩ := hlookup
      have hwinner : winner'.name = winner.name := congrArg Declaration.name hsame
      have hmem := (h.loaded.lookup?_eq_some_iff.mp hfound).mem
      have hmem' := (h.loaded'.lookup?_eq_some_iff.mp hfound').mem
      have hindex : winner'.index = e'.index ↔ winner.index = e.index := by
        rw [h.loaded'.index_eq_iff hmem' he', h.loaded.index_eq_iff hmem he, hwinner, hname]
      simp only [hfound, hfound', hindex, hwinner, hname]

/-- The rounding forms of both registries are declared alike, for bases that are declared alike. -/
theorem roundingPairs_perm :
    (r.roundingPairs.map fun pair => (pair.1.declaration, pair.2.declaration)).Perm
      (r'.roundingPairs.map fun pair => (pair.1.declaration, pair.2.declaration)) := by
  have hnodup : ∀ {s : Registry}, s.Loaded →
      (s.roundingPairs.map fun pair => (pair.1.declaration, pair.2.declaration)).Nodup :=
    fun hs => List.pairwise_map.mpr (hs.pairwise_roundingPairs.imp fun hne heq =>
      hne (congrArg (fun pair => pair.2.name) heq))
  have hmem : ∀ {s : Registry}, s.Loaded → ∀ p q,
      (p, q) ∈ (s.roundingPairs.map fun pair => (pair.1.declaration, pair.2.declaration)) ↔
        p ∈ s.entries.map Entry.declaration ∧ q ∈ s.entries.map Entry.declaration ∧
          q.roundingBase? = some p.name := by
    intro s hs p q
    simp only [List.mem_map, Prod.exists, Prod.mk.injEq, hs.mem_roundingPairs_iff]
    constructor
    · rintro ⟨base, variant, ⟨hbase, hvariant, hrounds⟩, rfl, rfl⟩
      exact ⟨⟨base, hbase, rfl⟩, ⟨variant, hvariant, rfl⟩, hrounds⟩
    · rintro ⟨⟨base, hbase, rfl⟩, ⟨variant, hvariant, rfl⟩, hrounds⟩
      exact ⟨base, variant, ⟨hbase, hvariant, hrounds⟩, rfl, rfl⟩
  refine (List.perm_ext_iff_of_nodup (hnodup h.loaded) (hnodup h.loaded')).mpr ?_
  rintro ⟨p, q⟩
  rw [hmem h.loaded, hmem h.loaded', h.perm.mem_iff, h.perm.mem_iff]

/-- **Encoding by name gives the same words and fails alike.** -/
theorem encode_find?_eq (name : String) (b : Bindings) :
    (r.find? name).map (r.encode · b) = (r'.find? name).map (r'.encode · b) := by
  have hfound : ∀ {s s' : Registry}, s.SameDeclarations s' → ∀ {e}, s.find? name = some e →
      ∃ e', s'.find? name = some e' ∧ s'.encode e' b = s.encode e b := by
    intro s s' hs e hfind
    obtain ⟨he, rfl⟩ := hs.loaded.find?_eq_some_iff.mp hfind
    obtain ⟨e', he', hdecl⟩ := hs.counterpart he
    have hname : e'.name = e.name := congrArg Declaration.name hdecl
    exact ⟨e', hs.loaded'.find?_eq_some_iff.mpr ⟨he', hname⟩, hs.encode_eq he he' hdecl b⟩
  exact map_eq_map_of_counterpart (fun _ => hfound h) fun _ => hfound h.symm

end SameDeclarations
end Registry
end CustomIsa
