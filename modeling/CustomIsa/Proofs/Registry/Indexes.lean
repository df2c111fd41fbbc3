import CustomIsa.Bundled
import CustomIsa.Proofs.Registry.Declared
import CustomIsa.Proofs.Registry.Lookup
/-! # The indexes of a registry

Definitions are looked up by their names, by their aliases, by the definitions that they round, by
shape and by the words that they match. Each of these indexes is filled by a pass of its own. In a
loaded registry all of them agree with the entries (`Registry.Indexed`): an index holds the position
of exactly the entries that have what it is about, so what is looked up is found exactly if an entry
has it, and no two entries share it. Names, declared aliases and bases are apart because loading
refuses repetitions. Generated aliases are apart from all others because a name that is taken is
passed over, so a declared alias is never given to another entry. -/
namespace CustomIsa

/-- The entry has an alias that its definition does not declare. -/
def Entry.aliasGenerated (e : Entry) : Bool := e.definition.intrinsic.isNone && e.alias.isSome

theorem Entry.aliasGenerated_of_eq {e : Entry} (h : e.alias = e.definition.intrinsic) :
    e.aliasGenerated = false := by
  rw [aliasGenerated, ← h]
  cases e.alias <;> rfl

namespace Registry

/-! ## Generated aliases -/

section
variable {stem : String} {m : NameMap Nat} {es : List Entry}

/-- An entry keeps its alias, or had none and gets the one that is generated for it. -/
theorem mem_generateAliases {e : Entry} (h : e ∈ (generateAliases stem m es).entries) :
    e ∈ es ∨ ∃ bare ∈ es, wantsAlias bare = true ∧
      e = { bare with «alias» := some (generatedAlias stem bare) } := by
  induction es generalizing m with
  | nil => cases h
  | cons first es ih =>
    have hrest : ∀ {m}, e ∈ (generateAliases stem m es).entries →
        e ∈ first :: es ∨ ∃ bare ∈ first :: es, wantsAlias bare = true ∧
          e = { bare with «alias» := some (generatedAlias stem bare) } := by
      intro m hmem
      rcases ih hmem with he | ⟨bare, hbare, hgiven⟩
      · exact .inl (List.mem_cons_of_mem _ he)
      · exact .inr ⟨bare, List.mem_cons_of_mem _ hbare, hgiven⟩
    rw [generateAliases] at h
    dsimp only at h
    split at h
    · rename_i hwants
      rcases List.mem_cons.mp h with rfl | h
      · exact .inr ⟨first, List.mem_cons_self, hwants.1, rfl⟩
      · exact hrest h
    · rcases List.mem_cons.mp h with rfl | h
      · exact .inl List.mem_cons_self
      · exact hrest h

/-- The count of generated aliases is that of the entries which have one. -/
theorem count_generateAliases (h : ∀ e ∈ es, e.alias = e.definition.intrinsic) :
    (generateAliases stem m es).generated =
      (generateAliases stem m es).entries.countP Entry.aliasGenerated := by
  induction es generalizing m with
  | nil => rfl
  | cons first es ih =>
    obtain ⟨hfirst, hes⟩ := List.forall_mem_cons.mp h
    rw [generateAliases]
    dsimp only
    split
    · rename_i hwants
      have hnone : first.definition.intrinsic = none :=
        hfirst.symm.trans (alias_of_wantsAlias hwants.1)
      rw [List.countP_cons_of_pos (by simp [Entry.aliasGenerated, hnone]), ih hes]
    · have hown := Entry.aliasGenerated_of_eq hfirst
      rw [List.countP_cons_of_neg (Bool.eq_false_iff.mp hown), ih hes]

end

section
variable {settings : RegistrySettings} {es : List Entry} {a : Aliased}
  (h : assignAliases settings es = .ok a)
include h

theorem mem_assignAliases {e : Entry} (he : e ∈ a.entries) :
    e ∈ es ∨ ∃ bare ∈ es, wantsAlias bare = true ∧
      e = { bare with «alias» := some (generatedAlias settings.aliasPrefix bare) } := by
  obtain ⟨m, -, rfl⟩ := assignAliases_eq_ok h
  split at he
  · exact mem_generateAliases he
  · exact .inl he

theorem count_assignAliases (hes : ∀ e ∈ es, e.alias = e.definition.intrinsic) :
    a.generated = a.entries.countP Entry.aliasGenerated := by
  obtain ⟨m, -, rfl⟩ := assignAliases_eq_ok h
  split
  · exact count_generateAliases hes
  · refine (List.countP_eq_zero.mpr fun e he => ?_).symm
    exact Bool.eq_false_iff.mp (Entry.aliasGenerated_of_eq (hes e he))

end

/-! ## Loaded registries -/

/-- The indexes of a registry hold what the entries have, and what is looked up through them is what
the entries say. Each entry has the alias that it declares or one that was generated for it, and the
report counts what there is. -/
structure Indexed (settings : RegistrySettings) (r : Registry) : Prop where
  numbered : r.entries.map Entry.index = List.range r.entries.length
  names : Indexes r.byName (fun e => some e.name) r.entries
  aliases : Indexes r.byAlias Entry.alias r.entries
  rows : r.decodeRows.Perm (r.entries.map Entry.decodeRow)
  shapes : ∀ key, r.table.candidates key =
    (r.entries.filter (·.shape? = some key)).map Entry.index
  links : ∀ i j, r.rounding.lookup i = some j ↔ ∃ base ∈ r.entries, ∃ variant ∈ r.entries,
    variant.roundingBase? = some base.name ∧ base.index = i ∧ variant.index = j
  named : ∀ name e, r.find? name = some e ↔ e ∈ r.entries ∧ e.name = name
  aliased : ∀ name e, r.byAlias? name = some e ↔ e ∈ r.entries ∧ e.alias = some name
  declares : ∀ e ∈ r.entries, ∀ name, e.definition.intrinsic = some name → e.alias = some name
  generates : ∀ e ∈ r.entries, e.aliasGenerated = true →
    e.alias = some (generatedAlias settings.aliasPrefix e)
  ordered : r.decodeOrder.Perm r.entries
  shaped : ∀ key, r.shaped key = r.entries.filter (·.shape? = some key)
  rounded : ∀ base ∈ r.entries, ∀ variant, r.roundingVariant? base = some variant ↔
    variant ∈ r.entries ∧ variant.roundingBase? = some base.name
  oneBase : ∀ base ∈ r.entries, ∀ base' ∈ r.entries, ∀ variant,
    r.roundingVariant? base = some variant → r.roundingVariant? base' = some variant → base = base'
  rounds : ∀ base ∈ r.entries, ∀ variant, r.roundingVariant? base = some variant →
    base.template.isSome = true ∧ variant.template = none ∧
      base.definition.operands = variant.definition.operands
  instructions : r.report.instructions = r.entries.length
  templates : r.report.templates = r.entries.countP (·.template.isSome)
  autoIntrinsics : r.report.autoIntrinsics = r.entries.countP Entry.aliasGenerated

/-- Definitions are taken in with the aliases that they declare. -/
theorem alias_of_extend {settings : RegistrySettings} {es : List Extension} {intake : Intake}
    (h : Intake.extend settings.xlen {} es = .ok intake) :
    ∀ e ∈ intake.entries, e.alias = e.definition.intrinsic := by
  rw [entries_of_extend h]
  exact fun e he => (alias_of_mem_taken he).1

section
variable {settings : RegistrySettings} {es : List Extension} {r : Registry}
  (h : load settings es = .ok r)
include h

/-- An entry has the alias that it declares, or none or the generated one if it declares none. -/
theorem alias_of_load {e : Entry} (he : e ∈ r.entries) :
    e.alias = e.definition.intrinsic ∨ e.definition.intrinsic = none ∧
      e.alias = some (generatedAlias settings.aliasPrefix e) := by
  obtain ⟨intake, a, t, hintake, hcompleted⟩ := load_eq_ok h
  rw [hcompleted.entries_eq (Intake.bare_extend hintake)] at he
  obtain ⟨bare, hbare, rfl⟩ := List.mem_map.mp he
  have hdeclared := alias_of_extend hintake
  rcases mem_assignAliases hcompleted.aliased hbare with hold | ⟨old, hold, hwants, rfl⟩
  · exact .inl (hdeclared bare hold)
  · exact .inr ⟨(hdeclared old hold).symm.trans (alias_of_wantsAlias hwants), rfl⟩

/-- The passes count what they leave behind. -/
theorem counts_of_load : r.report.instructions = r.entries.length ∧
    r.report.templates = r.entries.countP (·.template.isSome) ∧
    r.report.autoIntrinsics = r.entries.countP Entry.aliasGenerated := by
  obtain ⟨intake, a, t, hintake, hcompleted⟩ := load_eq_ok h
  have hbare := Intake.bare_extend hintake
  refine ⟨?_, ?_, ?_⟩
  · have hlength := congrArg List.length (hcompleted.core_eq hbare)
    rw [List.length_map, List.length_map] at hlength
    rw [hcompleted.instructions, hlength]
  · rw [hcompleted.templates]
    exact (tabulated_nil.compileEntries (hcompleted.bare hbare) hcompleted.compiled).count
  · rw [hcompleted.autoIntrinsics,
      count_assignAliases hcompleted.aliased (alias_of_extend hintake),
      hcompleted.entries_eq hbare, List.countP_map]
    rfl

/-- **The indexes of a loaded registry are consistent.** Each of them, as its pass leaves it, holds
the positions of exactly the entries that have what it is about: the maps of names and aliases, the
table of shapes, the links of rounding forms and the rows for decoding. A name or an alias is looked
up with success exactly if an entry has it. An alias that a definition declares is its own, whatever
aliases are generated for others. The decode order lists every entry once. A definition has the
rounding form that names it, no other definition has the same one, and the form has the operands of
its base but no template, where the base has one. The report counts the entries, the templates and
the generated aliases. -/
theorem indexed_of_load : r.Indexed settings := by
  have hr := loaded_of_load h
  obtain ⟨hinstructions, htemplates, hgenerated⟩ := counts_of_load h
  refine {
    numbered := hr.wellFormed.indexed
    names := hr.names
    aliases := hr.aliases
    rows := hr.decodeRows_eq ▸ (Sorting.sort_perm _ _).map Entry.decodeRow
    shapes := hr.shapes
    links := fun i j => hr.links.lookup_eq_some_iff.trans (hr.links.mem_iff i j)
    named := fun name e => hr.find?_eq_some_iff
    aliased := fun name e => hr.byAlias?_eq_some_iff
    declares := fun e he name hname => ?_
    generates := fun e he hgenerated => ?_
    ordered := hr.decodeOrder_eq ▸ Sorting.sort_perm _ _
    shaped := hr.shaped_eq
    rounded := fun base _ variant => hr.roundingVariant?_eq_some_iff
    oneBase := fun base hbase base' hbase' variant hvariant hvariant' => ?_
    rounds := fun base hbase variant hvariant => ?_
    instructions := hinstructions
    templates := htemplates
    autoIntrinsics := hgenerated }
  · rcases alias_of_load h he with halias | ⟨hnone, -⟩
    · exact halias.trans hname
    · cases hnone.symm.trans hname
  · rcases alias_of_load h he with halias | ⟨-, halias⟩
    · cases (Entry.aliasGenerated_of_eq halias).symm.trans hgenerated
    · exact halias
  · exact hr.base_eq (hr.mem_roundingPairs.mpr ⟨hbase, hvariant⟩)
      (hr.mem_roundingPairs.mpr ⟨hbase', hvariant'⟩)
  · obtain ⟨hmem, hname⟩ := hr.roundingVariant?_eq_some_iff.mp hvariant
    exact rounds_of_load h hbase hmem hname

end

/-- Definitions with colliding aliases: the second declares what would be generated for the first,
and the same alias would be generated for the other two. -/
def collisions : Extension where
  label := "x"
  title := "Collisions"
  instructions := [
    { mnemonic := "a"
      operands := Bundled.registers 32 true
      layout := .registerForm 43 0 1 },
    { mnemonic := "b"
      operands := Bundled.registers 32 true
      layout := .registerForm 43 0 2
      intrinsic := some "__builtin_riscv_x_a" },
    { mnemonic := "c.d"
      operands := Bundled.registers 32 true
      layout := .registerForm 43 0 3 },
    { mnemonic := "c_d"
      operands := Bundled.registers 32 true
      layout := .registerForm 43 0 4 }]

/-- The declared alias stays with its definition, the first of two generated ones is kept, and what
collides goes without. -/
theorem indexed_of_load_collisions :
    ∃ r b, load {} [Bundled.xcorev, collisions] = .ok r ∧ r.Indexed {} ∧
      r.byAlias? "__builtin_riscv_x_a" = some b ∧ b.name = "x.b" ∧
      b.definition.intrinsic = some "__builtin_riscv_x_a" ∧
      (r.entries.filter (·.alias = none)).map Entry.name = ["x.a", "x.c_d"] ∧
      r.report.autoIntrinsics = 5 := by
  have hrun : (load {} [Bundled.xcorev, collisions]).toOption.any (fun r =>
      ((r.byAlias? "__builtin_riscv_x_a").any fun b => b.name = "x.b" &&
        b.definition.intrinsic = some "__builtin_riscv_x_a") &&
      (r.entries.filter (·.alias = none)).map Entry.name = ["x.a", "x.c_d"] &&
      r.report.autoIntrinsics = 5) = true := by
    decide +kernel
  obtain ⟨r, hload, hcase⟩ := Option.any_eq_true _ _ |>.mp hrun
  simp only [Bool.and_eq_true, decide_eq_true_eq] at hcase
  obtain ⟨⟨hfound, hbare⟩, hcount⟩ := hcase
  obtain ⟨b, hb, hnamed⟩ := Option.any_eq_true _ _ |>.mp hfound
  rw [Bool.and_eq_true, decide_eq_true_iff, decide_eq_true_iff] at hnamed
  have hload := eq_ok_of_toOption hload
  exact ⟨r, b, hload, indexed_of_load hload, hb, hnamed.1, hnamed.2, hbare, hcount⟩

end Registry
end CustomIsa
