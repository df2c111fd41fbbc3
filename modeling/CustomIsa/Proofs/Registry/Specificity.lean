import CustomIsa.Proofs.Registry.RoundTrip
/-! # Which definition a word belongs to

A word is decoded as the definition with the fewest free bits among those that match it. That there
is one such definition is due to the test for ambiguity at load, which refuses exactly the pairs of
definitions that some word would leave undecided (`Registry.ambiguous_of_load`,
`Registry.load_of_ambiguous`). Encoding refuses a word that belongs to another definition, and names
that one (`Registry.Loaded.encode_shadowed_iff`). -/
namespace CustomIsa
namespace Registry

/-! ## The test for ambiguity -/

/-- The failure says that two definitions decode a word ambiguously. -/
def IsAmbiguity (f : Failure) : Prop :=
  ∃ later earlier, f = .malformed later (.ambiguousDecode earlier)

/-- The definitions that come to the test for ambiguity: the extensions were taken in without a
fault, and no alias is declared twice. -/
structure Admits (settings : RegistrySettings) (extensions : List Extension)
    (entries : List Entry) : Prop where
  xlen : settings.xlen = 32 ∨ settings.xlen = 64
  taken : ∃ intake, Intake.extend settings.xlen {} extensions = .ok intake ∧
    intake.entries = entries
  aliases : (entries.filterMap Entry.alias).Nodup

theorem Intake.add_error {xlen : Nat} {label : String} {s : Intake} {d : Definition} {f : Failure}
    (h : s.add xlen label d = .error f) : ¬IsAmbiguity f := by
  rintro ⟨later, earlier, rfl⟩
  rw [Intake.add] at h
  split at h
  · cases h
  split at h
  · cases h
  · split at h <;> cases h

theorem Intake.addAll_error {xlen : Nat} {label : String} {s : Intake} {ds : List Definition}
    {f : Failure} (h : s.addAll xlen label ds = .error f) : ¬IsAmbiguity f := by
  induction ds generalizing s with
  | nil => cases h
  | cons d ds ih =>
    rcases bind_eq_error h with hadd | ⟨next, -, hrest⟩
    · exact add_error hadd
    · exact ih hrest

theorem Intake.extend_error {xlen : Nat} {s : Intake} {es : List Extension} {f : Failure}
    (h : s.extend xlen es = .error f) : ¬IsAmbiguity f := by
  induction es generalizing s with
  | nil => cases h
  | cons e es ih =>
    rw [Intake.extend] at h
    split at h
    · rintro ⟨later, earlier, rfl⟩
      cases h
    · rcases bind_eq_error h with hadd | ⟨next, -, hrest⟩
      · exact addAll_error hadd
      · exact ih hrest

theorem declareAliases_error {m : NameMap Nat} {es : List Entry} {f : Failure}
    (h : declareAliases m es = .error f) : ¬IsAmbiguity f := by
  induction es generalizing m with
  | nil => cases h
  | cons e es ih =>
    rw [declareAliases] at h
    split at h
    · exact ih h
    split at h
    · rintro ⟨later, earlier, rfl⟩
      cases h
    · exact ih h

theorem compileEntries_error {s : Templates} {es : List Entry} {f : Failure}
    (h : compileEntries s es = .error f) : ¬IsAmbiguity f := by
  induction es generalizing s with
  | nil => cases h
  | cons e es ih =>
    rcases bind_eq_error h with hhead | ⟨⟨e', next⟩, -, hbind⟩
    · rintro ⟨later, earlier, rfl⟩
      rw [compileEntry] at hhead
      split at hhead
      · cases hhead
      split at hhead
      · cases hhead
      · split at hhead <;> cases hhead
    · rcases bind_eq_error hbind with htail | ⟨rest, -, hpure⟩
      · exact ih htail
      · cases hpure

theorem linkAll_error {all : List Entry} {byName : NameMap Nat} {links : List (Nat × Nat)}
    {es : List Entry} {f : Failure} (h : linkAll all byName links es = .error f) :
    ¬IsAmbiguity f := by
  induction es generalizing links with
  | nil => cases h
  | cons e es ih =>
    rw [linkAll] at h
    split at h
    · exact ih h
    split at h
    · rename_i base _ fault hfault
      rintro ⟨later, earlier, rfl⟩
      obtain ⟨-, rfl⟩ := Failure.malformed.inj (Except.error.inj h)
      rw [link] at hfault
      split at hfault
      · cases hfault
      split at hfault
      · cases hfault
      repeat (split at hfault; cases hfault)
      cases hfault
    · exact ih h

/-- Completion fails for ambiguity exactly when it finds a clash, and names the pair. -/
theorem complete_ambiguous_iff {settings : RegistrySettings} {intake : Intake}
    {later earlier : String} :
    complete settings intake = .error (.malformed later (.ambiguousDecode earlier)) ↔
      (intake.entries.filterMap Entry.alias).Nodup ∧ ∃ a b,
        clash? (withAliases settings intake.entries) = some (a, b) ∧
          a.name = earlier ∧ b.name = later := by
  have hamb : IsAmbiguity (.malformed later (.ambiguousDecode earlier)) := ⟨_, _, rfl⟩
  rw [← assignAliases_ok_iff settings]
  cases haliased : assignAliases settings intake.entries with
  | error f =>
    refine iff_of_false (fun hfail => ?_) (by simp)
    rcases bind_eq_error hfail with hassign | ⟨a, hassign, -⟩
    · exact declareAliases_error (map_eq_error hassign) hamb
    · cases haliased.symm.trans hassign
  | ok a =>
    rw [withAliases_of_ok haliased, and_iff_right ⟨a, rfl⟩]
    cases hclash : clash? a.entries with
    | some pair =>
      obtain ⟨first, second⟩ := pair
      simp only [complete, haliased, bind, Except.bind, hclash, Except.error.injEq,
        Failure.malformed.injEq, Fault.ambiguousDecode.injEq, Option.some.injEq, Prod.mk.injEq]
      constructor
      · rintro ⟨rfl, rfl⟩
        exact ⟨first, second, ⟨rfl, rfl⟩, rfl, rfl⟩
      · rintro ⟨_, _, ⟨rfl, rfl⟩, rfl, rfl⟩
        exact ⟨rfl, rfl⟩
    | none =>
      refine iff_of_false (fun hfail => ?_) (by simp)
      rcases bind_eq_error hfail with hassign | ⟨b, hassign, hfail⟩
      · cases haliased.symm.trans hassign
      obtain rfl := Except.ok.inj (haliased.symm.trans hassign)
      rw [hclash] at hfail
      rcases bind_eq_error hfail with hcompile | ⟨⟨entries, templates⟩, -, hfail⟩
      · exact compileEntries_error hcompile hamb
      · rcases bind_eq_error hfail with hlink | ⟨links, -, hpure⟩
        · exact linkAll_error hlink hamb
        · cases hpure

theorem load_clash_iff {settings : RegistrySettings} {extensions : List Extension}
    {later earlier : String} :
    load settings extensions = .error (.malformed later (.ambiguousDecode earlier)) ↔
      ∃ entries, Admits settings extensions entries ∧ ∃ a b,
        clash? (withAliases settings entries) = some (a, b) ∧
          a.name = earlier ∧ b.name = later := by
  constructor
  · intro h
    rw [load] at h
    split at h
    · cases h
    rename_i hxlen
    rcases bind_eq_error h with hintake | ⟨intake, hintake, hcomplete⟩
    · exact absurd ⟨_, _, rfl⟩ (Intake.extend_error hintake)
    obtain ⟨haliases, hpair⟩ := complete_ambiguous_iff.mp hcomplete
    exact ⟨intake.entries, ⟨by omega, ⟨intake, hintake, rfl⟩, haliases⟩, hpair⟩
  · rintro ⟨entries, ⟨hxlen, ⟨intake, hintake, rfl⟩, haliases⟩, hpair⟩
    rw [load, if_neg (by omega), hintake]
    exact complete_ambiguous_iff.mpr ⟨haliases, hpair⟩

section
variable {settings : RegistrySettings} {extensions : List Extension} {entries : List Entry}

theorem Admits.valid (h : Admits settings extensions entries) {e : Entry} (he : e ∈ entries) :
    e.definition.Valid := by
  obtain ⟨intake, hintake, rfl⟩ := h.taken
  exact Definition.valid_of_check ((Intake.sound_empty.extend hintake).wellFormed.checked e he)

/-- The clash that is found is one between two definitions that are ambiguous. -/
theorem Admits.ambiguous_of_clash (h : Admits settings extensions entries) {a' b' : Entry}
    (hclash : clash? (withAliases settings entries) = some (a', b')) :
    ∃ a b, [a, b].Sublist entries ∧ Ambiguous a.definition b.definition ∧
      a.name = a'.name ∧ b.name = b'.name := by
  obtain ⟨hsub, hpair⟩ := clash?_eq_some hclash
  have hcore := hsub.map Entry.core
  rw [core_withAliases, List.sublist_map_iff] at hcore
  obtain ⟨pair, hpairs, heq⟩ := hcore
  obtain ⟨a, rest, rfl, ha, hrest⟩ := List.map_eq_cons_iff.mp heq.symm
  obtain ⟨b, tail, rfl, hb, htail⟩ := List.map_eq_cons_iff.mp hrest
  obtain rfl := List.map_eq_nil_iff.mp htail
  have hadef : a.definition = a'.definition := congrArg (fun c => c.2.2) ha
  have hbdef : b.definition = b'.definition := congrArg (fun c => c.2.2) hb
  rw [← hadef, ← hbdef, clash_eq_true_iff (h.valid (hpairs.subset (by simp)))
    (h.valid (hpairs.subset (by simp)))] at hpair
  exact ⟨a, b, hpairs, hpair, Entry.name_eq_of_core ha, Entry.name_eq_of_core hb⟩

/-- Two ambiguous definitions make the test find a clash, between these or two others. -/
theorem Admits.clash_of_ambiguous (h : Admits settings extensions entries) {a b : Entry}
    (hsub : [a, b].Sublist entries) (hamb : Ambiguous a.definition b.definition) :
    ∃ a' b', clash? (withAliases settings entries) = some (a', b') := by
  cases hfind : clash? (withAliases settings entries) with
  | some pair => exact ⟨pair.1, pair.2, rfl⟩
  | none =>
    have hap : ((withAliases settings entries).map Entry.definition).Pairwise
        fun a b => clash a b = false := List.pairwise_map.mpr (clash?_eq_none_iff.mp hfind)
    rw [Entry.map_definition_of_core (core_withAliases _ _), List.pairwise_map] at hap
    have hclear := List.pairwise_iff_forall_sublist.mp hap hsub
    rw [(clash_eq_true_iff (h.valid (hsub.subset (by simp)))
      (h.valid (hsub.subset (by simp)))).mpr hamb] at hclear
    cases hclear

end

/-- A failure for ambiguity names two definitions that are ambiguous. -/
theorem ambiguous_of_load {settings : RegistrySettings} {extensions : List Extension}
    {later earlier : String}
    (h : load settings extensions = .error (.malformed later (.ambiguousDecode earlier))) :
    ∃ entries a b, Admits settings extensions entries ∧ [a, b].Sublist entries ∧
      Ambiguous a.definition b.definition ∧ a.name = earlier ∧ b.name = later := by
  obtain ⟨entries, hadmits, a', b', hclash, rfl, rfl⟩ := load_clash_iff.mp h
  obtain ⟨a, b, hsub, hamb, ha, hb⟩ := hadmits.ambiguous_of_clash hclash
  exact ⟨entries, a, b, hadmits, hsub, hamb, ha, hb⟩

/-- Two ambiguous definitions are not loaded together. -/
theorem load_of_ambiguous {settings : RegistrySettings} {extensions : List Extension}
    {entries : List Entry} (h : Admits settings extensions entries) {a b : Entry}
    (hsub : [a, b].Sublist entries) (hamb : Ambiguous a.definition b.definition) :
    ∃ later earlier,
      load settings extensions = .error (.malformed later (.ambiguousDecode earlier)) := by
  obtain ⟨a', b', hclash⟩ := h.clash_of_ambiguous hsub hamb
  exact ⟨_, _, load_clash_iff.mpr ⟨entries, h, a', b', hclash, rfl, rfl⟩⟩

/-! ## Words that belong to another definition -/

/-- Packing operand values never fails because of another definition. -/
theorem codec_encode_ne_shadowed {d : Definition} {b : Bindings} {name winner : String} {w : Word} :
    Codec.encode d b ≠ .error (.shadowed name winner w) := by
  have hops : ∀ (ops : List Operand) (bits : Nat),
      Codec.encodeOperands d b bits ops ≠ .error (.shadowed name winner w) := by
    intro ops
    induction ops with
    | nil =>
      intro bits h
      cases h
    | cons op ops ih =>
      intro bits h
      rw [Codec.encodeOperands] at h
      split at h
      · cases h
      split at h
      · cases h
      split at h
      · cases h
      · exact ih _ h
  intro h
  rw [Codec.encode] at h
  split at h
  · cases h
  · cases hpack : Codec.encodeOperands d b d.layout.matchBits d.operands with
    | ok packed =>
      rw [hpack] at h
      cases h
    | error f =>
      rw [hpack] at h
      exact hops _ _ (hpack.trans (congrArg Except.error (Except.error.inj h)))

/-- Encoding refuses a word as shadowed exactly when the search finds another definition for it. -/
theorem encode_eq_shadowed_iff {r : Registry} {e : Entry} {b : Bindings} {name winner : String}
    {w : Word} :
    r.encode e b = .error (.shadowed name winner w) ↔
      Codec.encode e.definition b = .ok w ∧ e.name = name ∧
        ∃ e', r.lookup? w = some e' ∧ e'.index ≠ e.index ∧ e'.name = winner := by
  rw [encode]
  cases hword : Codec.encode e.definition b with
  | error f =>
    simp only [reduceCtorEq, false_and, iff_false, Except.error.injEq]
    rintro rfl
    exact codec_encode_ne_shadowed hword
  | ok word =>
    simp only [Except.ok.injEq]
    cases hlookup : r.lookup? word with
    | none =>
      simp only [reduceCtorEq, false_iff]
      rintro ⟨rfl, -, e', hfound, -⟩
      rw [hlookup] at hfound
      cases hfound
    | some found =>
      by_cases hindex : found.index = e.index
      · simp only [hindex, if_true, reduceCtorEq, false_iff]
        rintro ⟨rfl, -, e', hfound, hne, -⟩
        rw [hlookup] at hfound
        obtain rfl := Option.some.inj hfound
        exact hne hindex
      · simp only [hindex, if_false, Except.error.injEq, Failure.shadowed.injEq]
        constructor
        · rintro ⟨rfl, rfl, rfl⟩
          exact ⟨rfl, rfl, found, hlookup, hindex, rfl⟩
        · rintro ⟨rfl, rfl, e', hfound, -, rfl⟩
          rw [hlookup] at hfound
          obtain rfl := Option.some.inj hfound
          exact ⟨rfl, rfl, rfl⟩

/-- The definition of a word is the same in every registry with the same definitions, in whatever
order they were declared. -/
theorem MostSpecific.of_perm {r r' : Registry} {w : Word} {e : Entry} (he : r.MostSpecific w e)
    (hr' : r'.Loaded) (hperm : (r.entries.map fun e => (e.label, e.definition)).Perm
      (r'.entries.map fun e => (e.label, e.definition))) :
    ∃ e', r'.MostSpecific w e' ∧ e'.label = e.label ∧ e'.definition = e.definition := by
  have hin := hperm.subset (List.mem_map_of_mem (f := fun e => (e.label, e.definition)) he.mem)
  obtain ⟨e', he', heq⟩ := List.mem_map.mp hin
  obtain ⟨hlabel, hdef⟩ := Prod.mk.inj heq
  have hfits' : e'.definition.matchesWord w = true := hdef ▸ he.fits
  refine ⟨e', ⟨he', hfits', fun other hother hne hfits => ?_⟩, hlabel, hdef⟩
  have hback := hperm.symm.subset
    (List.mem_map_of_mem (f := fun e => (e.label, e.definition)) hother)
  obtain ⟨o, ho, hoeq⟩ := List.mem_map.mp hback
  have hodef : o.definition = other.definition := (Prod.mk.inj hoeq).2
  by_cases hoe : o = e
  · subst hoe
    -- a second copy of the winner would be ambiguous with it
    refine absurd ?_ hne
    exact hr'.eq_of_matches hother he' hfits hfits' (by rw [← hodef, ← hdef])
  · rw [hdef, ← hodef]
    exact he.fewest o ho hoe (hodef ▸ hfits)

namespace Loaded
variable {r : Registry} (hr : r.Loaded)
include hr

theorem decode_eq_ok_iff {w : Word} {d : Decoded} :
    r.decode w = .ok d ↔
      r.MostSpecific w d.entry ∧ d.bindings = Codec.extract d.entry.definition w.bits := by
  rw [← hr.lookup?_eq_some_iff, decode]
  cases hlookup : r.lookup? w with
  | none => simp
  | some e =>
    obtain ⟨e', bindings⟩ := d
    simp only [Except.ok.injEq, Decoded.mk.injEq, Option.some.injEq]
    constructor
    · rintro ⟨rfl, rfl⟩
      exact ⟨rfl, rfl⟩
    · rintro ⟨rfl, rfl⟩
      exact ⟨rfl, rfl⟩

/-- Encoding refuses exactly the words that match a definition with fewer free bits too. -/
theorem encode_shadowed_iff {e : Entry} (he : e ∈ r.entries) {b : Bindings} :
    (∃ name winner w, r.encode e b = .error (.shadowed name winner w)) ↔
      ∃ w, Codec.encode e.definition b = .ok w ∧ ∃ e' ∈ r.entries, e' ≠ e ∧
        e'.definition.freeBits < e.definition.freeBits ∧ e'.definition.matchesWord w = true := by
  constructor
  · rintro ⟨name, winner, w, hfail⟩
    obtain ⟨hword, -, e', hlookup, hindex, -⟩ := encode_eq_shadowed_iff.mp hfail
    have hspec := hr.lookup?_eq_some_iff.mp hlookup
    have hne : e' ≠ e := fun heq => hindex (congrArg Entry.index heq)
    have hfits := Codec.matchesWord_of_encode (hr.valid he) hword
    exact ⟨w, hword, e', hspec.mem, hne, hspec.fewest e he hne.symm hfits, hspec.fits⟩
  · rintro ⟨w, hword, e', he', -, hfree, hfits⟩
    cases hlookup : r.lookup? w with
    | none =>
      rw [hr.lookup?_eq_none_iff.mp hlookup e' he'] at hfits
      cases hfits
    | some found =>
      have hspec := hr.lookup?_eq_some_iff.mp hlookup
      refine ⟨_, _, w, encode_eq_shadowed_iff.mpr ⟨hword, rfl, found, hlookup, ?_, rfl⟩⟩
      intro hindex
      -- the word would belong to `e`, although `e'` has fewer free bits
      obtain rfl := hr.eq_of_index hspec.mem he hindex
      have hne : e' ≠ found := by
        rintro rfl
        exact Nat.lt_irrefl _ hfree
      have hlt := hspec.fewest e' he' hne hfits
      omega

/-- Registries with the same definitions decode every word alike. -/
theorem decode_eq_of_perm {r' : Registry} (hr' : r'.Loaded)
    (hperm : (r.entries.map fun e => (e.label, e.definition)).Perm
      (r'.entries.map fun e => (e.label, e.definition))) (w : Word) :
    (r.decode w).map (fun d => (d.entry.name, d.entry.definition, d.bindings)) =
      (r'.decode w).map fun d => (d.entry.name, d.entry.definition, d.bindings) := by
  rw [decode, decode]
  cases hlookup : r.lookup? w with
  | some e =>
    obtain ⟨e', he', hlabel, hdef⟩ :=
      (hr.lookup?_eq_some_iff.mp hlookup).of_perm hr' hperm
    rw [hr'.lookup?_eq_some_iff.mpr he']
    simp only [Except.map, Entry.name, hlabel, hdef]
  | none =>
    cases hlookup' : r'.lookup? w with
    | none => rfl
    | some e' =>
      obtain ⟨e, he, -⟩ :=
        (hr'.lookup?_eq_some_iff.mp hlookup').of_perm hr hperm.symm
      rw [hr.lookup?_eq_some_iff.mpr he] at hlookup
      cases hlookup

end Loaded

/-- **Words are decoded as their most specific definition.** A word that no definition matches is
refused; any other belongs to the one definition with fewer free bits than all others that match
it, whatever the order of declaration. Encoding refuses a word of another definition and names that
definition. Loading refuses two definitions exactly when some word would leave it open to which of
them it belongs. -/
theorem decode_specificity (settings : RegistrySettings) (extensions : List Extension) :
    (∀ r, load settings extensions = .ok r →
      (∀ w, r.decode w = .error (.noMatch w) ↔
        ∀ e ∈ r.entries, ¬(e.definition.wordSize = w.size ∧
          w.bits &&& e.definition.layout.mask = e.definition.layout.matchBits)) ∧
      (∀ w, (∃ e ∈ r.entries, e.definition.matchesWord w = true) →
        ∃ e, r.MostSpecific w e ∧ (∀ e', r.MostSpecific w e' → e' = e) ∧
          r.decode w = .ok ⟨e, Codec.extract e.definition w.bits⟩) ∧
      (∀ settings' extensions' r', load settings' extensions' = .ok r' →
        (r.entries.map fun e => (e.label, e.definition)).Perm
          (r'.entries.map fun e => (e.label, e.definition)) →
        ∀ w, (r.decode w).map (fun d => (d.entry.name, d.entry.definition, d.bindings)) =
          (r'.decode w).map fun d => (d.entry.name, d.entry.definition, d.bindings)) ∧
      (∀ e ∈ r.entries, ∀ b,
        ((∃ name winner w, r.encode e b = .error (.shadowed name winner w)) ↔
          ∃ w, Codec.encode e.definition b = .ok w ∧ ∃ e' ∈ r.entries, e' ≠ e ∧
            e'.definition.freeBits < e.definition.freeBits ∧ e'.definition.matchesWord w = true) ∧
        (∀ name winner w, r.encode e b = .error (.shadowed name winner w) →
          name = e.name ∧ Codec.encode e.definition b = .ok w ∧
            ∃ d, r.decode w = .ok d ∧ winner = d.entry.name))) ∧
    (∀ a b : Definition, a.check = .ok () → b.check = .ok () →
      (clash a b = true ↔ Ambiguous a b)) ∧
    (∀ later earlier,
      load settings extensions = .error (.malformed later (.ambiguousDecode earlier)) →
      ∃ entries a b, Admits settings extensions entries ∧ [a, b].Sublist entries ∧
        Ambiguous a.definition b.definition ∧ a.name = earlier ∧ b.name = later) ∧
    (∀ entries a b, Admits settings extensions entries → [a, b].Sublist entries →
      Ambiguous a.definition b.definition →
      ∃ later earlier,
        load settings extensions = .error (.malformed later (.ambiguousDecode earlier))) := by
  refine ⟨fun r hload => ?_, fun a b ha hb => ?_, fun _ _ => ambiguous_of_load,
    fun _ _ _ hadmits => load_of_ambiguous hadmits⟩
  · have hr := loaded_of_load hload
    refine ⟨fun w => ?_, fun w hmatch => ?_, fun _ _ _ hload' hperm w => ?_, fun e he b => ?_⟩
    · simp only [← Definition.matchesWord_iff, Bool.not_eq_true, ← hr.lookup?_eq_none_iff, decode]
      cases r.lookup? w <;> simp
    · cases hlookup : r.lookup? w with
      | none =>
        obtain ⟨e, he, hfits⟩ := hmatch
        rw [hr.lookup?_eq_none_iff.mp hlookup e he] at hfits
        cases hfits
      | some e =>
        have hspec := hr.lookup?_eq_some_iff.mp hlookup
        exact ⟨e, hspec, fun _ h => h.unique hspec, hr.decode_eq_ok_iff.mpr ⟨hspec, rfl⟩⟩
    · exact hr.decode_eq_of_perm (loaded_of_load hload') hperm w
    · refine ⟨hr.encode_shadowed_iff he, fun name winner w hfail => ?_⟩
      obtain ⟨hword, rfl, e', hlookup, -, rfl⟩ := encode_eq_shadowed_iff.mp hfail
      have hspec := hr.lookup?_eq_some_iff.mp hlookup
      have hdecode : r.decode w = .ok ⟨e', Codec.extract e'.definition w.bits⟩ :=
        hr.decode_eq_ok_iff.mpr ⟨hspec, rfl⟩
      exact ⟨rfl, hword, _, hdecode, rfl⟩
  · exact clash_eq_true_iff (Definition.valid_of_check ha) (Definition.valid_of_check hb)

/-- The branch with offset zero is a word of the shorter form, and the two extensions of one
vendor cannot be loaded side by side. -/
theorem decode_specificity_branches :
    (∃ r e w d, load {} [branches] = .ok r ∧ e ∈ r.entries ∧
      r.encode e (.ofList [("off", 0), ("rs", 9)]) = .error (.shadowed "x.b" "x.bz" w) ∧
      r.decode w = .ok d ∧ d.entry.name = "x.bz") ∧
    ∃ later earlier, load {} [branches, { branches with label := "y" }] =
      .error (.malformed later (.ambiguousDecode earlier)) := by
  constructor
  · have hrun : (load {} [branches]).toOption.any (fun r => r.entries.any fun e =>
        match r.encode e (.ofList [("off", 0), ("rs", 9)]) with
        | .error (.shadowed name winner _) => name = "x.b" && winner = "x.bz"
        | _ => false) = true := by
      decide +kernel
    obtain ⟨r, hload, hany⟩ := Option.any_eq_true _ _ |>.mp hrun
    have hload := eq_ok_of_toOption hload
    obtain ⟨e, he, hcase⟩ := List.any_eq_true.mp hany
    split at hcase
    · rename_i name winner w hfail
      rw [Bool.and_eq_true, decide_eq_true_iff, decide_eq_true_iff] at hcase
      obtain ⟨rfl, rfl⟩ := hcase
      have hencode := ((decode_specificity {} [branches]).1 r hload).2.2.2 e he
      obtain ⟨-, -, d, hdecode, hwinner⟩ := (hencode _).2 _ _ _ hfail
      exact ⟨r, e, w, d, hload, he, hfail, hdecode, hwinner.symm⟩
    · cases hcase
  · have hrun : (Intake.extend 32 {} [branches, { branches with label := "y" }]).toOption.any
        (fun intake => decide (intake.entries.filterMap Entry.alias).Nodup &&
          (clash? intake.entries).isSome) = true := by
      decide +kernel
    obtain ⟨intake, hintake, hcase⟩ := Option.any_eq_true _ _ |>.mp hrun
    have hintake := eq_ok_of_toOption hintake
    rw [Bool.and_eq_true, decide_eq_true_iff, Option.isSome_iff_exists] at hcase
    obtain ⟨haliases, ⟨a, b⟩, hclash⟩ := hcase
    obtain ⟨hsub, hpair⟩ := clash?_eq_some hclash
    have hchecked := (Intake.sound_empty.extend hintake).wellFormed.checked
    have hspec := (decode_specificity {} [branches, { branches with label := "y" }]).2
    refine hspec.2.2 _ a b ⟨.inl rfl, ⟨intake, hintake, rfl⟩, haliases⟩ hsub ?_
    exact (hspec.1 _ _ (hchecked a (hsub.subset (by simp)))
      (hchecked b (hsub.subset (by simp)))).mp hpair

end Registry
end CustomIsa
