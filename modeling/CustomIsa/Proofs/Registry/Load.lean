import CustomIsa.Proofs.Definition
import CustomIsa.Proofs.Registry.Fill
import CustomIsa.Proofs.Template
/-! # What loading guarantees

Taking in definitions keeps an invariant (`Registry.Intake.Sound`): every definition passed its own
check, carries its position as its index, and has a name of its own, under which it is found. The
later stages of loading change neither index, label nor definition of an entry, they stop at the
first pair of definitions that clash, and each of them fills its index. So a loaded registry has all
of this at once (`Registry.Loaded`). -/
namespace CustomIsa

/-- What the later stages of loading leave alone: the index, the label and the definition. -/
def Entry.core (e : Entry) : Nat × String × Definition := (e.index, e.label, e.definition)

theorem Entry.name_eq_of_core {e e' : Entry} (h : e.core = e'.core) : e.name = e'.name := by
  simp only [core, Prod.mk.injEq] at h
  rw [name, name, h.2.1, h.2.2]

/-- Entries that agree in what loading leaves alone have the same definitions. -/
theorem Entry.map_definition_of_core {es es' : List Entry}
    (h : es'.map Entry.core = es.map Entry.core) :
    es'.map Entry.definition = es.map Entry.definition := by
  have hmap := congrArg (List.map fun c => c.2.2) h
  rwa [List.map_map, List.map_map] at hmap

namespace Definition

/-- The template that the definition's text compiles to, if it has one and compiles. -/
def compiled? (d : Definition) : Option Template :=
  d.template.bind fun text => (Template.ofText d text).toOption

/-- The definition's template compiles, if it has one. -/
def Compiles (d : Definition) : Prop :=
  ∀ text, d.template = some text → ∃ t, Template.ofText d text = .ok t

theorem Compiles.isSome_compiled? {d : Definition} (h : d.Compiles) :
    d.compiled?.isSome = d.template.isSome := by
  unfold compiled?
  cases htext : d.template with
  | none => rfl
  | some text =>
    obtain ⟨t, ht⟩ := h text htext
    simp [ht, Except.toOption]

theorem ofText_of_compiled? {d : Definition} {t : Template} (h : d.compiled? = some t) :
    ∃ text, d.template = some text ∧ Template.ofText d text = .ok t := by
  obtain ⟨text, htext, ht⟩ := Option.bind_eq_some_iff.mp h
  exact ⟨text, htext, eq_ok_of_toOption ht⟩

end Definition

namespace Registry

/-- The entries have passed their checks, are numbered in order and named apart. -/
structure WellFormed (entries : List Entry) : Prop where
  checked : ∀ e ∈ entries, e.definition.check = .ok ()
  indexed : entries.map Entry.index = List.range entries.length
  named : (entries.map Entry.name).Nodup

/-- Entries that differ in aliases, templates and opcodes only are well formed alike. -/
theorem WellFormed.of_core {entries entries' : List Entry} (h : WellFormed entries)
    (hcore : entries'.map Entry.core = entries.map Entry.core) : WellFormed entries' := by
  have hlen : entries'.length = entries.length := by
    have hlen := congrArg List.length hcore
    rwa [List.length_map, List.length_map] at hlen
  have hmap : ∀ {β : Type} (f : Nat × String × Definition → β),
      entries'.map (fun e => f e.core) = entries.map (fun e => f e.core) := by
    intro β f
    have hf := congrArg (List.map f) hcore
    rwa [List.map_map, List.map_map] at hf
  refine ⟨fun e he => ?_, ?_, ?_⟩
  · obtain ⟨e', he', heq⟩ := List.mem_map.mp (hcore ▸ List.mem_map_of_mem (f := Entry.core) he)
    have hdef : e.definition = e'.definition := congrArg (fun c => c.2.2) heq.symm
    rw [hdef]
    exact h.checked e' he'
  · rw [hlen, ← h.indexed]
    exact hmap fun c => c.1
  · have hname : entries'.map Entry.name = entries.map Entry.name :=
      hmap fun c => c.2.1 ++ "." ++ c.2.2.mnemonic
    rw [hname]
    exact h.named

/-- The names of entries that agree in what loading leaves alone are found alike. -/
theorem Indexes.of_core {m : NameMap Nat} {es es' : List Entry}
    (h : Indexes m (fun e => some e.name) es)
    (hcore : es'.map Entry.core = es.map Entry.core) : Indexes m (fun e => some e.name) es' := by
  refine h.of_map_eq ?_
  have hmap := congrArg (List.map fun c => (some (c.2.1 ++ "." ++ c.2.2.mnemonic), c.1)) hcore
  rwa [List.map_map, List.map_map] at hmap

/-! ## Taking in -/

/-- The entries taken in are well formed, and the map gives their positions by name. -/
structure Intake.Sound (s : Intake) : Prop where
  wellFormed : WellFormed s.entries
  byName : Indexes s.byName (fun e => some e.name) s.entries

theorem Intake.sound_empty : Intake.Sound {} := ⟨⟨by simp, rfl, by simp⟩, indexes_nil _⟩

theorem Intake.Sound.contains_iff {s : Intake} (hs : s.Sound) {name : String} :
    s.byName.contains name = true ↔ name ∈ s.entries.map Entry.name := by
  rw [hs.byName.contains_iff]
  simp

/-- What taking in a definition does: it is left out, or it passes its check and is entered under a
name that is new. -/
theorem Intake.add_eq_ok {xlen : Nat} {label : String} {s s' : Intake} {d : Definition}
    (h : s.add xlen label d = .ok s') :
    (d.variant = .rv64 ∧ xlen < 64) ∧ s'.entries = s.entries ∧ s'.byName = s.byName ∨
      ¬(d.variant = .rv64 ∧ xlen < 64) ∧ d.check = .ok () ∧
        s.byName.contains (label ++ "." ++ d.mnemonic) = false ∧
        s'.entries =
          s.entries ++ [⟨s.entries.length, label, d, none, d.intrinsic, opcodeOf? d⟩] ∧
        s'.byName = s.byName.insert (label ++ "." ++ d.mnemonic) s.entries.length := by
  rw [Intake.add] at h
  split at h
  · rename_i hout
    obtain rfl := Except.ok.inj h
    exact .inl ⟨hout, rfl, rfl⟩
  rename_i hin
  split at h
  · cases h
  rename_i hcheck
  split at h
  · cases h
  rename_i hnew
  obtain rfl := Except.ok.inj h
  exact .inr ⟨hin, hcheck, Bool.eq_false_iff.mpr hnew, rfl, rfl⟩

section Induct
variable {P : Intake → Prop} {xlen : Nat} {s s' : Intake}
  (hadd : ∀ {s s' label d}, P s → s.add xlen label d = .ok s' → P s')
include hadd

theorem Intake.addAll_induct {label : String} {ds : List Definition} (hs : P s)
    (h : s.addAll xlen label ds = .ok s') : P s' := by
  induction ds generalizing s with
  | nil =>
    obtain rfl := Except.ok.inj h
    exact hs
  | cons d ds ih =>
    obtain ⟨next, hnext, hrest⟩ := bind_eq_ok h
    exact ih (hadd hs hnext) hrest

/-- What every definition that is taken in preserves, and every namespace that is noted, holds of
all that was taken in. -/
theorem Intake.extend_induct
    (hlabel : ∀ {s : Intake} {label}, P s → P { s with extensions := s.extensions ++ [label] })
    {es : List Extension} (hs : P s) (h : s.extend xlen es = .ok s') : P s' := by
  induction es generalizing s with
  | nil =>
    obtain rfl := Except.ok.inj h
    exact hs
  | cons e es ih =>
    rw [Intake.extend] at h
    split at h
    · cases h
    · obtain ⟨next, hnext, hrest⟩ := bind_eq_ok h
      exact ih (addAll_induct hadd (hlabel hs) hnext) hrest

end Induct

theorem Intake.Sound.add {xlen : Nat} {label : String} {s s' : Intake} {d : Definition}
    (hs : s.Sound) (h : s.add xlen label d = .ok s') : s'.Sound := by
  obtain ⟨-, hentries, hbyName⟩ | ⟨-, hcheck, hnew, hentries, hbyName⟩ := Intake.add_eq_ok h
  · exact ⟨hentries ▸ hs.wellFormed, hentries ▸ hbyName ▸ hs.byName⟩
  have hfresh := mt hs.contains_iff.mpr (Bool.eq_false_iff.mp hnew)
  obtain ⟨⟨hchecked, hindexed, hnamed⟩, hnames⟩ := hs
  refine ⟨⟨fun e he => ?_, ?_, ?_⟩, ?_⟩
  · rw [hentries] at he
    rcases List.mem_append.mp he with he | he
    · exact hchecked e he
    · obtain rfl := List.mem_singleton.mp he
      exact hcheck
  · simp only [hentries, List.map_append, hindexed, List.map_cons, List.map_nil,
      List.length_append, List.length_singleton, List.range_succ]
  · rw [hentries, List.map_append, List.nodup_append]
    refine ⟨hnamed, by simp, ?_⟩
    rintro a ha b hb rfl
    obtain rfl := List.mem_singleton.mp hb
    exact hfresh ha
  · have hentered := hnames.insert
      (e := ⟨s.entries.length, label, d, none, d.intrinsic, opcodeOf? d⟩) rfl hnew
    rw [hentries, hbyName]
    exact hentered.of_mem_iff fun e => List.perm_append_comm.mem_iff

theorem Intake.Sound.addAll {xlen : Nat} {label : String} {s s' : Intake} {ds : List Definition}
    (hs : s.Sound) (h : s.addAll xlen label ds = .ok s') : s'.Sound :=
  addAll_induct Sound.add hs h

theorem Intake.Sound.extend {xlen : Nat} {s s' : Intake} {es : List Extension} (hs : s.Sound)
    (h : s.extend xlen es = .ok s') : s'.Sound :=
  extend_induct Sound.add (fun hs => ⟨hs.wellFormed, hs.byName⟩) hs h

/-- No template is compiled while definitions are taken in. -/
theorem Intake.bare_extend {xlen : Nat} {s : Intake} {es : List Extension}
    (h : Intake.extend xlen {} es = .ok s) : ∀ e ∈ s.entries, e.template = none := by
  refine extend_induct (P := fun s => ∀ e ∈ s.entries, e.template = none) ?_ id (by simp) h
  intro s s' label d hs h e he
  obtain ⟨-, hentries, -⟩ | ⟨-, -, -, hentries, -⟩ := Intake.add_eq_ok h
  · exact hs e (hentries ▸ he)
  · rw [hentries] at he
    rcases List.mem_append.mp he with he | he
    · exact hs e he
    · obtain rfl := List.mem_singleton.mp he
      rfl

/-! ## Aliases and clashes -/

/-- No clash is found exactly when no two entries clash. -/
theorem clash?_eq_none_iff {es : List Entry} :
    clash? es = none ↔ es.Pairwise fun a b => clash a.definition b.definition = false := by
  induction es with
  | nil => simp [clash?]
  | cons a es ih =>
    rw [clash?, List.pairwise_cons, ← ih]
    cases hfind : es.find? fun b => clash a.definition b.definition with
    | some b =>
      simp only [reduceCtorEq, false_iff, not_and]
      intro hall
      have htrue : clash a.definition b.definition = true := by
        simpa using List.find?_some hfind
      rw [hall b (List.mem_of_find?_eq_some hfind)] at htrue
      cases htrue
    | none =>
      simp only [iff_and_self]
      intro _ b hb
      exact Bool.eq_false_iff.mpr (List.find?_eq_none.mp hfind b hb)

/-- A clash that is found is one between two entries, in load order. -/
theorem clash?_eq_some {es : List Entry} {a b : Entry} (h : clash? es = some (a, b)) :
    [a, b].Sublist es ∧ clash a.definition b.definition = true := by
  induction es with
  | nil => cases h
  | cons c es ih =>
    rw [clash?] at h
    split at h
    · rename_i b' hfind
      obtain ⟨rfl, rfl⟩ := Prod.mk.inj (Option.some.inj h)
      exact ⟨(List.singleton_sublist.mpr (List.mem_of_find?_eq_some hfind)).cons_cons c,
        by simpa using List.find?_some hfind⟩
    · obtain ⟨hsub, hclash⟩ := ih h
      exact ⟨hsub.cons c, hclash⟩

/-- The entries after aliases have been assigned; they stay as they are if that fails. -/
def withAliases (settings : RegistrySettings) (entries : List Entry) : List Entry :=
  match assignAliases settings entries with
  | .ok a => a.entries
  | .error _ => entries

theorem withAliases_of_ok {settings : RegistrySettings} {entries : List Entry} {a : Aliased}
    (h : assignAliases settings entries = .ok a) : withAliases settings entries = a.entries := by
  rw [withAliases, h]

section
variable {β : Type} {f : Entry → β} (hf : ∀ e name, f { e with «alias» := some name } = f e)
include hf

theorem map_generateAliases (stem : String) (m : NameMap Nat) (es : List Entry) :
    (generateAliases stem m es).entries.map f = es.map f := by
  induction es generalizing m with
  | nil => rfl
  | cons e es ih =>
    rw [generateAliases]
    dsimp only
    split
    · rw [List.map_cons, List.map_cons, ih, hf]
    · rw [List.map_cons, List.map_cons, ih]

/-- Entries change in their aliases only. -/
theorem map_withAliases (settings : RegistrySettings) (entries : List Entry) :
    (withAliases settings entries).map f = entries.map f := by
  cases h : assignAliases settings entries with
  | error fault => rw [withAliases, h]
  | ok a =>
    rw [withAliases_of_ok h]
    obtain ⟨m, -, rfl⟩ := assignAliases_eq_ok h
    split
    · exact map_generateAliases hf _ _ _
    · rfl

end

theorem core_withAliases (settings : RegistrySettings) (entries : List Entry) :
    (withAliases settings entries).map Entry.core = entries.map Entry.core :=
  map_withAliases (fun _ _ => rfl) settings entries

theorem bare_withAliases {settings : RegistrySettings} {entries : List Entry}
    (hbare : ∀ e ∈ entries, e.template = none) :
    ∀ e ∈ withAliases settings entries, e.template = none := by
  intro e he
  have hmem := List.mem_map_of_mem (f := Entry.template) he
  rw [map_withAliases (fun _ _ => rfl)] at hmem
  obtain ⟨e', he', heq⟩ := List.mem_map.mp hmem
  rw [← heq]
  exact hbare e' he'

/-! ## Templates -/

/-- The entry with the template that its definition compiles to. -/
def withTemplate (e : Entry) : Entry := { e with template := e.definition.compiled? }

theorem compileEntry_eq {s s' : Templates} {e e' : Entry} (hbare : e.template = none)
    (h : compileEntry s e = .ok (e', s')) : e' = withTemplate e := by
  unfold withTemplate Definition.compiled?
  obtain ⟨htext, rfl, -⟩ | ⟨text, t, key, htext, ht, -, rfl, -⟩ := compileEntry_eq_ok h
  · simp [htext, ← hbare]
  · simp [htext, ht, Except.toOption]

/-- Compiling changes entries in their templates only. -/
theorem compileEntries_eq {s s' : Templates} {es es' : List Entry}
    (hbare : ∀ e ∈ es, e.template = none) (h : compileEntries s es = .ok (es', s')) :
    es' = es.map withTemplate := by
  induction es generalizing s es' with
  | nil =>
    obtain ⟨rfl, -⟩ := Prod.mk.inj (Except.ok.inj h)
    rfl
  | cons e es ih =>
    obtain ⟨first, between, rest, hfirst, hrest, rfl⟩ := compileEntries_cons h
    obtain ⟨he, hes⟩ := List.forall_mem_cons.mp hbare
    rw [List.map_cons, compileEntry_eq he hfirst, ih hes hrest]

/-- A template that compiles has a shape with a rule, so nothing else keeps an entry from being
compiled. -/
theorem compileEntry_ok_iff {s : Templates} {e : Entry} :
    (∃ out, compileEntry s e = .ok out) ↔ e.definition.Compiles := by
  unfold compileEntry Definition.Compiles
  cases htext : e.definition.template with
  | none => simp
  | some text =>
    simp only [Option.some.injEq, forall_eq']
    cases ht : Template.ofText e.definition text with
    | error fault => simp
    | ok t =>
      obtain ⟨hreads, -, hoperator⟩ := Template.compiled_ofText ht
      obtain ⟨key, hkey, hrule⟩ := Template.exists_rule_of_reads hreads hoperator
      simp [hkey, Option.filter_some, hrule]

theorem compileEntries_ok_iff {s : Templates} {es : List Entry} :
    (∃ out, compileEntries s es = .ok out) ↔ ∀ e ∈ es, e.definition.Compiles := by
  induction es generalizing s with
  | nil => simp [compileEntries]
  | cons e es ih =>
    rw [List.forall_mem_cons, ← compileEntry_ok_iff, compileEntries, exists_bind_eq_ok]
    constructor
    · rintro ⟨⟨first, between⟩, hfirst, hrest⟩
      obtain ⟨rest, hrest, -⟩ := exists_bind_eq_ok.mp hrest
      exact ⟨⟨_, hfirst⟩, ih.mp ⟨rest, hrest⟩⟩
    · rintro ⟨⟨⟨first, between⟩, hfirst⟩, hes⟩
      obtain ⟨rest, hrest⟩ := (ih (s := between)).mpr hes
      exact ⟨_, hfirst, exists_bind_eq_ok.mpr ⟨rest, hrest, _, rfl⟩⟩

/-! ## Loading -/

/-- What completion makes of what was taken in: aliases are assigned, no two entries clash,
templates are compiled and rounding forms linked, and the indexes and counts are those of these
passes. -/
structure Completed (settings : RegistrySettings) (intake : Intake) (a : Aliased) (t : Templates)
    (r : Registry) : Prop where
  aliased : assignAliases settings intake.entries = .ok a
  apart : clash? a.entries = none
  compiled : compileEntries {} a.entries = .ok (r.entries, t)
  linked : linkAll r.entries intake.byName [] r.entries = .ok r.rounding
  xlen : r.xlen = settings.xlen
  byName : r.byName = intake.byName
  byAlias : r.byAlias = a.byAlias
  decodeRows : r.decodeRows = decodeRowsOf r.entries
  table : r.table = t.table
  instructions : r.report.instructions = intake.entries.length
  templates : r.report.templates = t.count
  autoIntrinsics : r.report.autoIntrinsics = a.generated

theorem complete_eq_ok {settings : RegistrySettings} {intake : Intake} {r : Registry}
    (h : complete settings intake = .ok r) : ∃ a t, Completed settings intake a t r := by
  obtain ⟨a, haliased, h⟩ := bind_eq_ok h
  cases hclash : clash? a.entries with
  | some pair =>
    rw [hclash] at h
    cases h
  | none =>
    rw [hclash] at h
    obtain ⟨⟨entries, t⟩, hcompile, h⟩ := bind_eq_ok h
    obtain ⟨links, hlink, h⟩ := bind_eq_ok h
    obtain rfl := Except.ok.inj h
    exact ⟨a, t, haliased, hclash, hcompile, hlink, rfl, rfl, rfl, rfl, rfl, rfl, rfl, rfl⟩

theorem load_eq_ok {settings : RegistrySettings} {extensions : List Extension} {r : Registry}
    (h : load settings extensions = .ok r) :
    ∃ intake a t, Intake.extend settings.xlen {} extensions = .ok intake ∧
      Completed settings intake a t r := by
  rw [load] at h
  split at h
  · cases h
  obtain ⟨intake, hintake, hcomplete⟩ := bind_eq_ok h
  obtain ⟨a, t, hcompleted⟩ := complete_eq_ok hcomplete
  exact ⟨intake, a, t, hintake, hcompleted⟩

section
variable {settings : RegistrySettings} {intake : Intake} {a : Aliased} {t : Templates}
  {r : Registry} (h : Completed settings intake a t r)
  (hbare : ∀ e ∈ intake.entries, e.template = none)
include h hbare

theorem Completed.bare : ∀ e ∈ a.entries, e.template = none := by
  rw [← withAliases_of_ok h.aliased]
  exact bare_withAliases hbare

theorem Completed.entries_eq : r.entries = a.entries.map withTemplate :=
  compileEntries_eq (h.bare hbare) h.compiled

theorem Completed.core_eq : r.entries.map Entry.core = intake.entries.map Entry.core := by
  rw [h.entries_eq hbare, List.map_map, ← core_withAliases settings intake.entries,
    withAliases_of_ok h.aliased]
  rfl

end

/-- What holds of every registry that was loaded: its definitions are well formed and no two clash,
templates are compiled from the definitions, and its indexes give what the entries have. -/
structure Loaded (r : Registry) : Prop where
  wellFormed : WellFormed r.entries
  apart : r.entries.Pairwise fun a b => clash a.definition b.definition = false
  templates : ∀ e ∈ r.entries, e.template = e.definition.compiled?
  names : Indexes r.byName (fun e => some e.name) r.entries
  aliases : Indexes r.byAlias Entry.alias r.entries
  rows : r.decodeRows = decodeRowsOf r.entries
  shapes : ∀ key, r.table.candidates key =
    (r.entries.filter (·.shape? = some key)).map Entry.index
  links : Linked r.entries r.entries r.rounding
  rounds : ∀ e ∈ r.entries, ∀ base, e.roundingBase? = some base → Rounds r.entries e base

/-- **A loaded registry has checked definitions, numbered and named apart, of which no two clash,
and every index was filled with all of them.** -/
theorem loaded_of_load {settings : RegistrySettings} {extensions : List Extension} {r : Registry}
    (h : load settings extensions = .ok r) : r.Loaded := by
  obtain ⟨intake, a, t, hintake, hcompleted⟩ := load_eq_ok h
  have hsound := Intake.sound_empty.extend hintake
  have hbare := Intake.bare_extend hintake
  have hcore := hcompleted.core_eq hbare
  have hwell := hsound.wellFormed.of_core hcore
  have hnames : Indexes intake.byName (fun e => some e.name) r.entries :=
    hsound.byName.of_core hcore
  have hlinks := linked_nil r.entries
  refine ⟨hwell, ?_, ?_, hcompleted.byName ▸ hnames, ?_, hcompleted.decodeRows, ?_,
    hlinks.linkAll hnames hwell.indexed hcompleted.linked, ?_⟩
  · rw [hcompleted.entries_eq hbare, List.pairwise_map]
    exact clash?_eq_none_iff.mp hcompleted.apart
  · rw [hcompleted.entries_eq hbare]
    exact List.forall_mem_map.mpr fun _ _ => rfl
  · rw [hcompleted.byAlias, hcompleted.entries_eq hbare]
    refine (indexes_assignAliases hcompleted.aliased).of_map_eq ?_
    rw [List.map_map]
    rfl
  · rw [hcompleted.table]
    exact (tabulated_nil.compileEntries (hcompleted.bare hbare) hcompleted.compiled).shapes
  · exact ((hlinks.linkAll_ok_iff hnames hwell.indexed).mp ⟨_, hcompleted.linked⟩).1

namespace Loaded
variable {r : Registry} (h : r.Loaded)
include h

theorem valid {e : Entry} (he : e ∈ r.entries) : e.definition.Valid :=
  Definition.valid_of_check (h.wellFormed.checked e he)

/-- **The templates of a loaded registry are compiled from text, each against its definition.** -/
theorem compiled {e : Entry} {t : Template} (he : e ∈ r.entries) (ht : e.template = some t) :
    ∃ text, Template.ofText e.definition text = .ok t := by
  rw [h.templates e he] at ht
  obtain ⟨text, -, htext⟩ := Definition.ofText_of_compiled? ht
  exact ⟨text, htext⟩

/-- An index belongs to one entry only. -/
theorem eq_of_index {e e' : Entry} (he : e ∈ r.entries) (he' : e' ∈ r.entries)
    (hindex : e.index = e'.index) : e = e' :=
  entry_eq_of_index h.wellFormed.indexed he he' hindex

end Loaded
end Registry
end CustomIsa
