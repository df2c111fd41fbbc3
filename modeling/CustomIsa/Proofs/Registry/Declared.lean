import CustomIsa.Proofs.Registry.Load
/-! # What a list of extensions loads

The definitions that extensions declare for a target (`Registry.declared`) settle all else. They
are taken in one after another, so their entries are known before any of them is checked
(`Registry.taken`), and a loaded registry holds these entries with aliases and compiled templates
(`Registry.entries_of_load`). Loading succeeds exactly if the declarations keep the rules that
`Registry.Loadable` lists, none of which speaks of their order (`Registry.load_ok_iff`). -/
namespace CustomIsa

/-- A definition under the label of its extension. -/
structure Declaration where
  label : String
  definition : Definition

namespace Declaration

/-- The qualified name of the definition. -/
def name (p : Declaration) : String := p.label ++ "." ++ p.definition.mnemonic

/-- The qualified name of the definition of which this is the rounding form. -/
def roundingBase? (p : Declaration) : Option String :=
  p.definition.rounds?.map fun base => p.label ++ "." ++ base

/-- The declaration may be the rounding form of the one named `base` among `ps`: it has no template
of its own, and the base has one, and the same operands. -/
def Rounds (p : Declaration) (ps : List Declaration) (base : String) : Prop :=
  p.definition.template = none ∧ ∃ q ∈ ps, q.name = base ∧
    q.definition.template.isSome = true ∧ q.definition.operands = p.definition.operands

/-- The entry of a declaration that is taken in as number `n`. -/
def toEntry (n : Nat) (p : Declaration) : Entry :=
  { index := n, label := p.label, definition := p.definition, «alias» := p.definition.intrinsic,
    opcode := Registry.opcodeOf? p.definition }

end Declaration

namespace Entry

/-- What an entry was declared as. -/
def declaration (e : Entry) : Declaration := ⟨e.label, e.definition⟩

@[simp] theorem name_declaration (e : Entry) : e.declaration.name = e.name := rfl

@[simp] theorem roundingBase?_declaration (e : Entry) :
    e.declaration.roundingBase? = e.roundingBase? := rfl

@[simp] theorem definition_declaration (e : Entry) :
    e.declaration.definition = e.definition := rfl

@[simp] theorem declaration_toEntry (n : Nat) (p : Declaration) :
    (p.toEntry n).declaration = p := rfl

/-- Entries that agree in what loading leaves alone are declared alike. -/
theorem map_declaration_of_core {es es' : List Entry}
    (h : es'.map Entry.core = es.map Entry.core) :
    es'.map Entry.declaration = es.map Entry.declaration := by
  have hmap := congrArg (List.map fun c => (⟨c.2.1, c.2.2⟩ : Declaration)) h
  rwa [List.map_map, List.map_map] at hmap

end Entry

namespace Definition

/-- The target is too narrow for the definition. -/
def leftOut (xlen : Nat) (d : Definition) : Bool := d.variant = .rv64 ∧ xlen < 64

end Definition

namespace Registry

/-! ## Declarations -/

/-- The declarations of one extension that the target takes in. -/
def declaredBy (xlen : Nat) (label : String) (ds : List Definition) : List Declaration :=
  (ds.filter fun d => !d.leftOut xlen).map (Declaration.mk label)

/-- The declarations of all extensions that the target takes in, in load order. -/
def declared (xlen : Nat) (es : List Extension) : List Declaration :=
  es.flatMap fun x => declaredBy xlen x.label x.instructions

theorem declaredBy_of_leftOut {xlen : Nat} {d : Definition} (h : d.variant = .rv64 ∧ xlen < 64)
    (label : String) : declaredBy xlen label [d] = [] := by
  have hout : d.leftOut xlen = true := decide_eq_true h
  simp [declaredBy, hout]

theorem declaredBy_of_not_leftOut {xlen : Nat} {d : Definition}
    (h : ¬(d.variant = .rv64 ∧ xlen < 64)) (label : String) :
    declaredBy xlen label [d] = [⟨label, d⟩] := by
  have hout : d.leftOut xlen = false := decide_eq_false h
  simp [declaredBy, hout]

theorem declaredBy_cons (xlen : Nat) (label : String) (d : Definition) (ds : List Definition) :
    declaredBy xlen label (d :: ds) = declaredBy xlen label [d] ++ declaredBy xlen label ds := by
  unfold declaredBy
  rw [← List.map_append, ← List.filter_append]
  rfl

@[simp] theorem declared_cons (xlen : Nat) (x : Extension) (es : List Extension) :
    declared xlen (x :: es) = declaredBy xlen x.label x.instructions ++ declared xlen es := rfl

theorem declared_append (xlen : Nat) (es es' : List Extension) :
    declared xlen (es ++ es') = declared xlen es ++ declared xlen es' :=
  List.flatMap_append

/-- A declaration is one of an extension in the list. -/
theorem mem_declared {xlen : Nat} {es : List Extension} {p : Declaration}
    (h : p ∈ declared xlen es) : ∃ x ∈ es, x.label = p.label ∧ p.definition ∈ x.instructions := by
  obtain ⟨x, hx, hp⟩ := List.mem_flatMap.mp h
  obtain ⟨d, hd, rfl⟩ := List.mem_map.mp hp
  exact ⟨x, hx, rfl, (List.mem_filter.mp hd).1⟩

/-- The entries of declarations that are taken in from number `n` on. -/
def taken : Nat → List Declaration → List Entry
  | _, [] => []
  | n, p :: ps => p.toEntry n :: taken (n + 1) ps

@[simp] theorem map_declaration_taken (n : Nat) (ps : List Declaration) :
    (taken n ps).map Entry.declaration = ps := by
  induction ps generalizing n with
  | nil => rfl
  | cons p ps ih => rw [taken, List.map_cons, ih, Entry.declaration_toEntry]

@[simp] theorem length_taken (n : Nat) (ps : List Declaration) :
    (taken n ps).length = ps.length := by
  rw [← List.length_map (f := Entry.declaration), map_declaration_taken]

theorem taken_append (n : Nat) (ps qs : List Declaration) :
    taken n (ps ++ qs) = taken n ps ++ taken (n + ps.length) qs := by
  induction ps generalizing n with
  | nil => rfl
  | cons p ps ih =>
    have hn : n + (p :: ps).length = n + 1 + ps.length := by
      rw [List.length_cons]
      omega
    rw [List.cons_append, taken, ih, hn]
    rfl

/-- Entries are numbered from where their intake began. -/
theorem index_of_mem_taken {n : Nat} {ps : List Declaration} {e : Entry} (h : e ∈ taken n ps) :
    n ≤ e.index ∧ e.index < n + ps.length := by
  induction ps generalizing n with
  | nil => cases h
  | cons p ps ih =>
    rw [List.length_cons]
    rcases List.mem_cons.mp h with rfl | h
    · show n ≤ n ∧ n < n + (ps.length + 1)
      omega
    · have hrest := ih h
      omega

theorem alias_of_mem_taken {n : Nat} {ps : List Declaration} {e : Entry} (h : e ∈ taken n ps) :
    e.alias = e.definition.intrinsic ∧ e.template = none := by
  induction ps generalizing n with
  | nil => cases h
  | cons p ps ih =>
    rcases List.mem_cons.mp h with rfl | h
    · exact ⟨rfl, rfl⟩
    · exact ih h

/-! ## Intake -/

/-- The declarations pass their own checks, and their names are new and apart. -/
structure Admissible (names : List String) (ps : List Declaration) : Prop where
  checked : ∀ p ∈ ps, p.definition.check = .ok ()
  named : (ps.map Declaration.name).Nodup
  fresh : ∀ p ∈ ps, p.name ∉ names

theorem admissible_nil (names : List String) : Admissible names [] := by
  constructor <;> simp

theorem admissible_singleton_iff {names : List String} {p : Declaration} :
    Admissible names [p] ↔ p.definition.check = .ok () ∧ p.name ∉ names := by
  constructor
  · intro h
    exact ⟨h.checked p (by simp), h.fresh p (by simp)⟩
  · rintro ⟨hcheck, hfresh⟩
    constructor <;> simp [hcheck, hfresh]

/-- Declarations are admitted together exactly if the later ones are admitted after the others. -/
theorem admissible_append_iff {names : List String} {ps qs : List Declaration} :
    Admissible names (ps ++ qs) ↔
      Admissible names ps ∧ Admissible (names ++ ps.map Declaration.name) qs := by
  constructor
  · rintro ⟨hcheck, hnamed, hfresh⟩
    rw [List.map_append, List.nodup_append] at hnamed
    obtain ⟨hps, hqs, hapart⟩ := hnamed
    refine ⟨⟨fun p hp => hcheck p (by simp [hp]), hps, fun p hp => hfresh p (by simp [hp])⟩,
      fun q hq => hcheck q (by simp [hq]), hqs, ?_⟩
    intro q hq hmem
    rcases List.mem_append.mp hmem with hmem | hmem
    · exact hfresh q (by simp [hq]) hmem
    · exact hapart _ hmem _ (List.mem_map_of_mem hq) rfl
  · rintro ⟨hps, hqs⟩
    refine ⟨?_, ?_, ?_⟩
    · intro p hp
      exact (List.mem_append.mp hp).elim (hps.checked p) (hqs.checked p)
    · rw [List.map_append, List.nodup_append]
      refine ⟨hps.named, hqs.named, ?_⟩
      intro a ha b hb hab
      obtain ⟨q, hq, rfl⟩ := List.mem_map.mp hb
      exact hqs.fresh q hq (List.mem_append_right _ (hab ▸ ha))
    · intro p hp hmem
      rcases List.mem_append.mp hp with hp | hp
      · exact hps.fresh p hp hmem
      · exact hqs.fresh p hp (List.mem_append_left _ hmem)

namespace Intake

/-- The names of the entries taken in so far. -/
def names (s : Intake) : List String := s.entries.map Entry.name

theorem names_eq {s s' : Intake} {n : Nat} {ps : List Declaration}
    (h : s'.entries = s.entries ++ taken n ps) : s'.names = s.names ++ ps.map Declaration.name := by
  have hnew : (taken n ps).map Entry.name = ps.map Declaration.name := by
    conv_rhs => rw [← map_declaration_taken n ps, List.map_map]
    rfl
  rw [names, names, h, List.map_append, hnew]

theorem entries_add {xlen : Nat} {label : String} {s s' : Intake} {d : Definition}
    (h : s.add xlen label d = .ok s') :
    s'.entries = s.entries ++ taken s.entries.length (declaredBy xlen label [d]) := by
  obtain ⟨hout, hentries, -⟩ | ⟨hin, -, -, hentries, -⟩ := add_eq_ok h
  · simp [hentries, declaredBy_of_leftOut hout, taken]
  · rw [hentries, declaredBy_of_not_leftOut hin]
    rfl

theorem add_ok_iff {xlen : Nat} {label : String} {s : Intake} {d : Definition} (hs : s.Sound) :
    (∃ s', s.add xlen label d = .ok s') ↔ Admissible s.names (declaredBy xlen label [d]) := by
  unfold Intake.add
  by_cases hout : d.variant = .rv64 ∧ xlen < 64
  · simp only [hout, and_self, if_true, declaredBy_of_leftOut hout, admissible_nil, iff_true]
    exact ⟨_, rfl⟩
  · have hnew : s.byName.contains (label ++ "." ++ d.mnemonic) = true ↔
        Declaration.name ⟨label, d⟩ ∈ s.names := hs.contains_iff
    simp only [hout, if_false, declaredBy_of_not_leftOut hout, admissible_singleton_iff, ← hnew]
    cases hcheck : d.check with
    | error fault => simp
    | ok u => cases s.byName.contains (label ++ "." ++ d.mnemonic) <;> simp

theorem entries_addAll {xlen : Nat} {label : String} {s s' : Intake} {ds : List Definition}
    (h : s.addAll xlen label ds = .ok s') :
    s'.entries = s.entries ++ taken s.entries.length (declaredBy xlen label ds) := by
  induction ds generalizing s with
  | nil =>
    obtain rfl := Except.ok.inj h
    simp [declaredBy, taken]
  | cons d ds ih =>
    obtain ⟨next, hadd, hrest⟩ := bind_eq_ok h
    rw [ih hrest, entries_add hadd, List.length_append, length_taken,
      declaredBy_cons xlen label d ds, taken_append, List.append_assoc]

theorem addAll_ok_iff {xlen : Nat} {label : String} {s : Intake} {ds : List Definition}
    (hs : s.Sound) :
    (∃ s', s.addAll xlen label ds = .ok s') ↔ Admissible s.names (declaredBy xlen label ds) := by
  induction ds generalizing s with
  | nil => exact ⟨fun _ => admissible_nil _, fun _ => ⟨s, rfl⟩⟩
  | cons d ds ih =>
    rw [declaredBy_cons xlen label d ds, admissible_append_iff, ← add_ok_iff hs, Intake.addAll,
      exists_bind_eq_ok]
    constructor
    · rintro ⟨next, hadd, hrest⟩
      exact ⟨⟨next, hadd⟩, names_eq (entries_add hadd) ▸ (ih (hs.add hadd)).mp hrest⟩
    · rintro ⟨⟨next, hadd⟩, hrest⟩
      exact ⟨next, hadd, (ih (hs.add hadd)).mpr (names_eq (entries_add hadd) ▸ hrest)⟩

/-- The entries after an intake are those before it, and one for each declaration. -/
theorem entries_extend {xlen : Nat} {s s' : Intake} {es : List Extension}
    (h : s.extend xlen es = .ok s') :
    s'.entries = s.entries ++ taken s.entries.length (declared xlen es) := by
  induction es generalizing s with
  | nil =>
    obtain rfl := Except.ok.inj h
    simp [declared, taken]
  | cons x es ih =>
    rw [Intake.extend] at h
    split at h
    · cases h
    · obtain ⟨next, hadd, hrest⟩ := bind_eq_ok h
      rw [ih hrest, entries_addAll hadd, List.length_append, length_taken, declared_cons,
        taken_append, List.append_assoc]

/-- **An intake succeeds exactly if the labels are words and the declarations are admissible.** -/
theorem extend_ok_iff {xlen : Nat} {s : Intake} {es : List Extension} (hs : s.Sound) :
    (∃ s', s.extend xlen es = .ok s') ↔
      (∀ x ∈ es, ¬(x.label = "" ∨ Text.hasBlank x.label)) ∧
        Admissible s.names (declared xlen es) := by
  induction es generalizing s with
  | nil => exact ⟨fun _ => ⟨by simp, admissible_nil _⟩, fun _ => ⟨s, rfl⟩⟩
  | cons x es ih =>
    rw [Intake.extend, declared_cons, admissible_append_iff, List.forall_mem_cons]
    by_cases hlabel : x.label = "" ∨ Text.hasBlank x.label
    · simp only [hlabel, if_true, reduceCtorEq, exists_false, not_true, false_and]
    · rw [if_neg hlabel, exists_bind_eq_ok]
      have hstart : Intake.Sound { s with extensions := s.extensions ++ [x.label] } :=
        ⟨hs.wellFormed, hs.byName⟩
      have hnames : ({ s with extensions := s.extensions ++ [x.label] } : Intake).names = s.names :=
        rfl
      rw [← hnames, ← addAll_ok_iff hstart]
      constructor
      · rintro ⟨next, hadd, hrest⟩
        obtain ⟨hlabels, hadmits⟩ := (ih (hstart.addAll hadd)).mp hrest
        exact ⟨⟨hlabel, hlabels⟩, ⟨next, hadd⟩, names_eq (entries_addAll hadd) ▸ hadmits⟩
      · rintro ⟨⟨-, hlabels⟩, ⟨next, hadd⟩, hadmits⟩
        exact ⟨next, hadd,
          (ih (hstart.addAll hadd)).mpr ⟨hlabels, names_eq (entries_addAll hadd) ▸ hadmits⟩⟩

end Intake

/-! ## Aliases and rounding forms -/

theorem filterMap_alias_taken (n : Nat) (ps : List Declaration) :
    (taken n ps).filterMap Entry.alias = ps.filterMap (·.definition.intrinsic) := by
  induction ps generalizing n with
  | nil => rfl
  | cons p ps ih =>
    rw [taken, List.filterMap_cons, List.filterMap_cons, ih]
    rfl

/-- Whether an entry may be a rounding form is settled by the declarations. -/
theorem rounds_iff {all : List Entry}
    (htemplates : ∀ e ∈ all, e.template.isSome = e.definition.template.isSome) {e : Entry}
    {base : String} :
    Rounds all e base ↔ e.declaration.Rounds (all.map Entry.declaration) base := by
  unfold Rounds Declaration.Rounds
  refine and_congr_right fun _ => ?_
  constructor
  · rintro ⟨b, hb, hname, htemplate, hoperands⟩
    exact ⟨b.declaration, List.mem_map_of_mem hb, hname, htemplates b hb ▸ htemplate, hoperands⟩
  · rintro ⟨q, hq, hname, htemplate, hoperands⟩
    obtain ⟨b, hb, rfl⟩ := List.mem_map.mp hq
    exact ⟨b, hb, hname, (htemplates b hb).trans htemplate, hoperands⟩

/-! ## Loading -/

/-- The entries of a registry that holds the declarations. -/
def loadedEntries (settings : RegistrySettings) (ps : List Declaration) : List Entry :=
  (withAliases settings (taken 0 ps)).map withTemplate

theorem map_declaration_withAliases (settings : RegistrySettings) (ps : List Declaration) :
    (withAliases settings (taken 0 ps)).map Entry.declaration = ps :=
  (Entry.map_declaration_of_core (core_withAliases settings (taken 0 ps))).trans
    (map_declaration_taken 0 ps)

theorem map_core_loadedEntries (settings : RegistrySettings) (ps : List Declaration) :
    (loadedEntries settings ps).map Entry.core = (taken 0 ps).map Entry.core := by
  unfold loadedEntries
  rw [List.map_map, ← core_withAliases settings (taken 0 ps)]
  rfl

theorem map_declaration_loadedEntries (settings : RegistrySettings) (ps : List Declaration) :
    (loadedEntries settings ps).map Entry.declaration = ps :=
  (Entry.map_declaration_of_core (map_core_loadedEntries settings ps)).trans
    (map_declaration_taken 0 ps)

theorem template_of_mem_loadedEntries {settings : RegistrySettings} {ps : List Declaration}
    {e : Entry} (h : e ∈ loadedEntries settings ps) : e.template = e.definition.compiled? := by
  obtain ⟨e', -, rfl⟩ := List.mem_map.mp h
  rfl

/-- The rules that a list of extensions has to keep to be loaded. -/
structure Loadable (settings : RegistrySettings) (es : List Extension) : Prop where
  xlen : settings.xlen = 32 ∨ settings.xlen = 64
  labels : ∀ x ∈ es, ¬(x.label = "" ∨ Text.hasBlank x.label)
  checked : ∀ p ∈ declared settings.xlen es, p.definition.check = .ok ()
  named : ((declared settings.xlen es).map Declaration.name).Nodup
  aliases : ((declared settings.xlen es).filterMap (·.definition.intrinsic)).Nodup
  apart : (declared settings.xlen es).Pairwise fun p q => clash p.definition q.definition = false
  compiles : ∀ p ∈ declared settings.xlen es, p.definition.Compiles
  rounds : ∀ p ∈ declared settings.xlen es, ∀ base, p.roundingBase? = some base →
    p.Rounds (declared settings.xlen es) base
  variants : ((declared settings.xlen es).filterMap Declaration.roundingBase?).Nodup

theorem complete_ok_iff {settings : RegistrySettings} {intake : Intake} :
    (∃ r, complete settings intake = .ok r) ↔
      (intake.entries.filterMap Entry.alias).Nodup ∧
        clash? (withAliases settings intake.entries) = none ∧
        ∃ compiled t, compileEntries {} (withAliases settings intake.entries) = .ok (compiled, t) ∧
          ∃ links, linkAll compiled intake.byName [] compiled = .ok links := by
  rw [← assignAliases_ok_iff settings]
  constructor
  · rintro ⟨r, h⟩
    obtain ⟨a, t, hcompleted⟩ := complete_eq_ok h
    rw [withAliases_of_ok hcompleted.aliased]
    exact ⟨⟨a, hcompleted.aliased⟩, hcompleted.apart, r.entries, t, hcompleted.compiled,
      r.rounding, hcompleted.linked⟩
  · rintro ⟨⟨a, haliased⟩, hclash, compiled, t, hcompile, links, hlink⟩
    rw [withAliases_of_ok haliased] at hclash hcompile
    refine exists_bind_eq_ok.mpr ⟨a, haliased, ?_⟩
    rw [hclash]
    exact exists_bind_eq_ok.mpr ⟨_, hcompile, exists_bind_eq_ok.mpr ⟨links, hlink, _, rfl⟩⟩

theorem load_ok_iff_complete {settings : RegistrySettings} {es : List Extension} :
    (∃ r, load settings es = .ok r) ↔ (settings.xlen = 32 ∨ settings.xlen = 64) ∧
      ∃ intake, Intake.extend settings.xlen {} es = .ok intake ∧
        ∃ r, complete settings intake = .ok r := by
  unfold load
  by_cases hxlen : settings.xlen ≠ 32 ∧ settings.xlen ≠ 64
  · rw [if_pos hxlen]
    simp only [reduceCtorEq, exists_false, false_iff]
    omega
  · rw [if_neg hxlen, exists_bind_eq_ok]
    have hxlen' : settings.xlen = 32 ∨ settings.xlen = 64 := by omega
    simp only [hxlen', true_and]

section
variable {settings : RegistrySettings} {ps : List Declaration}

theorem bare_taken : ∀ e ∈ withAliases settings (taken 0 ps), e.template = none :=
  bare_withAliases fun _ he => (alias_of_mem_taken he).2

/-- Entries that were taken in clash exactly if their declarations do. -/
theorem clash?_taken_eq_none_iff :
    clash? (withAliases settings (taken 0 ps)) = none ↔
      ps.Pairwise fun p q => clash p.definition q.definition = false := by
  rw [clash?_eq_none_iff]
  conv_rhs => rw [← map_declaration_withAliases settings ps, List.pairwise_map]
  rfl

/-- Entries that were taken in compile exactly if their definitions do, each by itself. -/
theorem compileEntries_taken_iff {out : List Entry} :
    (∃ t, compileEntries {} (withAliases settings (taken 0 ps)) = .ok (out, t)) ↔
      (∀ p ∈ ps, p.definition.Compiles) ∧ out = loadedEntries settings ps := by
  have hall : (∀ e ∈ withAliases settings (taken 0 ps), e.definition.Compiles) ↔
      ∀ p ∈ ps, p.definition.Compiles := by
    conv_rhs => rw [← map_declaration_withAliases settings ps, List.forall_mem_map]
    rfl
  constructor
  · rintro ⟨t, h⟩
    exact ⟨hall.mp (compileEntries_ok_iff.mp ⟨_, h⟩), compileEntries_eq bare_taken h⟩
  · rintro ⟨hcompiles, rfl⟩
    obtain ⟨⟨out, t⟩, hout⟩ := (compileEntries_ok_iff (s := {})).mpr (hall.mpr hcompiles)
    rw [hout, compileEntries_eq bare_taken hout, loadedEntries]
    exact ⟨t, rfl⟩

end

theorem entries_of_extend {settings : RegistrySettings} {es : List Extension} {intake : Intake}
    (h : Intake.extend settings.xlen {} es = .ok intake) :
    intake.entries = taken 0 (declared settings.xlen es) :=
  (Intake.entries_extend h).trans (List.nil_append _)

/-- Rounding forms that were taken in are linked exactly if their declarations allow it. -/
theorem linkAll_taken_iff {settings : RegistrySettings} {es : List Extension} {intake : Intake}
    (h : Intake.extend settings.xlen {} es = .ok intake)
    (hcompiles : ∀ p ∈ declared settings.xlen es, p.definition.Compiles) :
    (∃ links, linkAll (loadedEntries settings (declared settings.xlen es)) intake.byName []
      (loadedEntries settings (declared settings.xlen es)) = .ok links) ↔
      (∀ p ∈ declared settings.xlen es, ∀ base, p.roundingBase? = some base →
        p.Rounds (declared settings.xlen es) base) ∧
        ((declared settings.xlen es).filterMap Declaration.roundingBase?).Nodup := by
  have hsound := Intake.sound_empty.extend h
  have hmap := map_declaration_loadedEntries settings (declared settings.xlen es)
  have hcore := map_core_loadedEntries settings (declared settings.xlen es)
  rw [← entries_of_extend h] at hcore
  have htemplates : ∀ e ∈ loadedEntries settings (declared settings.xlen es),
      e.template.isSome = e.definition.template.isSome := by
    intro e he
    have hmem := List.mem_map_of_mem (f := Entry.declaration) he
    rw [hmap] at hmem
    rw [template_of_mem_loadedEntries he]
    exact (hcompiles _ hmem).isSome_compiled?
  rw [(linked_nil _).linkAll_ok_iff (hsound.byName.of_core hcore)
    (hsound.wellFormed.of_core hcore).indexed]
  simp only [rounds_iff htemplates, hmap, List.filterMap_nil, List.not_mem_nil, not_false_eq_true,
    implies_true, and_true]
  conv_rhs => rw [← hmap, List.forall_mem_map, List.filterMap_map, hmap]
  rfl

/-- **Loading succeeds exactly if the declarations keep the rules.** -/
theorem load_ok_iff {settings : RegistrySettings} {es : List Extension} :
    (∃ r, load settings es = .ok r) ↔ Loadable settings es := by
  rw [load_ok_iff_complete]
  constructor
  · rintro ⟨hxlen, intake, hintake, hcomplete⟩
    obtain ⟨hlabels, hchecked, hnamed, -⟩ :=
      (Intake.extend_ok_iff Intake.sound_empty).mp ⟨intake, hintake⟩
    rw [complete_ok_iff, entries_of_extend hintake, clash?_taken_eq_none_iff,
      filterMap_alias_taken] at hcomplete
    obtain ⟨haliases, hapart, compiled, t, hcompile, hlink⟩ := hcomplete
    obtain ⟨hcompiles, rfl⟩ := compileEntries_taken_iff.mp ⟨t, hcompile⟩
    obtain ⟨hrounds, hvariants⟩ := (linkAll_taken_iff hintake hcompiles).mp hlink
    exact ⟨hxlen, hlabels, hchecked, hnamed, haliases, hapart, hcompiles, hrounds, hvariants⟩
  · intro h
    obtain ⟨intake, hintake⟩ := (Intake.extend_ok_iff Intake.sound_empty).mpr
      ⟨h.labels, h.checked, h.named, fun _ _ => List.not_mem_nil⟩
    refine ⟨h.xlen, intake, hintake, ?_⟩
    rw [complete_ok_iff, entries_of_extend hintake, clash?_taken_eq_none_iff,
      filterMap_alias_taken]
    obtain ⟨t, hcompile⟩ := compileEntries_taken_iff.mpr ⟨h.compiles, rfl⟩
    exact ⟨h.aliases, h.apart, _, t, hcompile,
      (linkAll_taken_iff hintake h.compiles).mpr ⟨h.rounds, h.variants⟩⟩

section
variable {settings : RegistrySettings} {es : List Extension} {r : Registry}
  (h : load settings es = .ok r)
include h

/-- **A loaded registry holds one entry for each declaration, in load order.** -/
theorem entries_of_load : r.entries = loadedEntries settings (declared settings.xlen es) := by
  obtain ⟨intake, a, t, hintake, hcompleted⟩ := load_eq_ok h
  have hcompile := hcompleted.compiled
  rw [← withAliases_of_ok hcompleted.aliased, Intake.entries_extend hintake] at hcompile
  exact (compileEntries_taken_iff.mp ⟨t, hcompile⟩).2

theorem xlen_of_load : r.xlen = settings.xlen := by
  obtain ⟨intake, a, t, -, hcompleted⟩ := load_eq_ok h
  exact hcompleted.xlen

theorem map_declaration_of_load :
    r.entries.map Entry.declaration = declared settings.xlen es := by
  rw [entries_of_load h, map_declaration_loadedEntries]

theorem mem_declared_of_load {e : Entry} (he : e ∈ r.entries) :
    e.declaration ∈ declared settings.xlen es := by
  rw [← map_declaration_of_load h]
  exact List.mem_map_of_mem he

/-- A rounding form has no template; its base has one, and the same operands. -/
theorem rounds_of_load {base variant : Entry} (hbase : base ∈ r.entries)
    (hvariant : variant ∈ r.entries) (hrounds : variant.roundingBase? = some base.name) :
    base.template.isSome = true ∧ variant.template = none ∧
      base.definition.operands = variant.definition.operands := by
  have hr := loaded_of_load h
  obtain ⟨hnone, b, hb, hname, htemplate, hoperands⟩ := hr.rounds variant hvariant _ hrounds
  obtain rfl := List.inj_on_of_nodup_map hr.wellFormed.named hb hbase hname
  refine ⟨htemplate, ?_, hoperands⟩
  rw [hr.templates variant hvariant, Definition.compiled?, hnone]
  rfl

theorem xlen_eq_of_load : r.xlen = 32 ∨ r.xlen = 64 := by
  rw [xlen_of_load h]
  exact (load_ok_iff.mp ⟨r, h⟩).xlen

/-- A definition that gives the text of a template has the template compiled from it. -/
theorem ofText_of_load {e : Entry} (he : e ∈ r.entries) {text : String}
    (htext : e.definition.template = some text) :
    ∃ t, e.template = some t ∧ Template.ofText e.definition text = .ok t := by
  obtain ⟨t, ht⟩ := (load_ok_iff.mp ⟨r, h⟩).compiles _ (mem_declared_of_load h he) text htext
  rw [Entry.definition_declaration] at ht
  refine ⟨t, ?_, ht⟩
  rw [(loaded_of_load h).templates e he, Definition.compiled?, htext, Option.bind_some, ht]
  rfl

end

end Registry
end CustomIsa
