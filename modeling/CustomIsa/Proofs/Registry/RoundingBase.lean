import CustomIsa.Proofs.Registry.Indexes
/-! # The base that a rounding form names

A rounding form names its base by a mnemonic, which is read in the form's own namespace: the
qualified name that the two make is looked up. Namespaces and mnemonics may have dots in them, so
one qualified name can be divided in several ways (`Entry.qualified_eq_iff`), and the base can be a
definition of a namespace that continues the form's own, or that the form's own continues
(`Registry.linked_iff_marked`). -/
namespace CustomIsa

/-- A longer namespace has a dot and the beginning of the mnemonic more than a shorter one. -/
theorem Entry.qualified_of_append {a m b n : String} {gap : List Char}
    (hb : b.toList = a.toList ++ gap) (hm : '.' :: m.toList = gap ++ '.' :: n.toList) :
    a = b ∧ m = n ∨ ∃ inner, b = a ++ "." ++ inner ∧ m = inner ++ "." ++ n := by
  cases gap with
  | nil =>
    refine .inl ⟨?_, ?_⟩ <;> apply String.toList_inj.mp
    · simpa using hb.symm
    · simpa using hm
  | cons c inner =>
    obtain ⟨rfl, hm⟩ := List.cons.inj hm
    refine .inr ⟨String.ofList inner, ?_, ?_⟩ <;> apply String.toList_inj.mp
    · simpa using hb
    · simpa using hm

/-- Two divisions of one qualified name: the same one, or one namespace is the other with a dot and
the beginning of the mnemonic. -/
theorem Entry.qualified_eq_iff {a m b n : String} :
    a ++ "." ++ m = b ++ "." ++ n ↔
      a = b ∧ m = n ∨ (∃ inner, b = a ++ "." ++ inner ∧ m = inner ++ "." ++ n) ∨
        ∃ inner, a = b ++ "." ++ inner ∧ n = inner ++ "." ++ m := by
  constructor
  · intro h
    have hlist : a.toList ++ '.' :: m.toList = b.toList ++ '.' :: n.toList := by
      simpa using congrArg String.toList h
    rcases List.append_eq_append_iff.mp hlist with ⟨gap, hb, hm⟩ | ⟨gap, ha, hn⟩
    · exact (qualified_of_append hb hm).imp_right .inl
    · rcases qualified_of_append ha hn with ⟨rfl, rfl⟩ | hlonger
      · exact .inl ⟨rfl, rfl⟩
      · exact .inr (.inr hlonger)
  · rintro (⟨rfl, rfl⟩ | ⟨inner, rfl, rfl⟩ | ⟨inner, rfl, rfl⟩)
    · rfl
    · simp only [String.append_assoc]
    · simp only [String.append_assoc]

namespace Registry

/-- **What a rounding form is linked to.** In a loaded registry a definition has a rounding form
exactly if the form's marker is the mnemonic of the definition and both are of one namespace, or the
marker or the mnemonic makes up for what one of their namespaces has more than the other. -/
theorem linked_iff_marked {settings : RegistrySettings} {es : List Extension}
    {r : Registry} (h : load settings es = .ok r) {base variant : Entry} :
    r.roundingVariant? base = some variant ↔
      variant ∈ r.entries ∧ ∃ marker, variant.definition.rounds? = some marker ∧
        (variant.label = base.label ∧ marker = base.definition.mnemonic ∨
          (∃ inner, base.label = variant.label ++ "." ++ inner ∧
            marker = inner ++ "." ++ base.definition.mnemonic) ∨
          ∃ inner, variant.label = base.label ++ "." ++ inner ∧
            base.definition.mnemonic = inner ++ "." ++ marker) := by
  rw [(loaded_of_load h).roundingVariant?_eq_some_iff, Entry.roundingBase?, Option.map_eq_some_iff]
  simp only [Entry.name, Entry.qualified_eq_iff]

/-- The accumulation has its rounding form, which names it in their common namespace. -/
theorem linked_iff_marked_macun :
    ∃ r base variant, load {} [Bundled.xexample, Bundled.xcorev] = .ok r ∧
      base.name = "cv.macun" ∧ variant.name = "cv.macurn" ∧
      r.roundingVariant? base = some variant := by
  have hrun : (load {} [Bundled.xexample, Bundled.xcorev]).toOption.any (fun r =>
      r.entries.any fun base => base.name = "cv.macun" && r.entries.any fun variant =>
        variant.name = "cv.macurn" && variant.label = base.label &&
          variant.definition.rounds? = some base.definition.mnemonic) = true := by
    decide +kernel
  obtain ⟨r, hload, hcase⟩ := Option.any_eq_true _ _ |>.mp hrun
  simp only [List.any_eq_true, Bool.and_eq_true, decide_eq_true_eq] at hcase
  obtain ⟨base, -, hbase, variant, hmem, ⟨hvariant, hlabel⟩, hmarker⟩ := hcase
  have hload := eq_ok_of_toOption hload
  exact ⟨r, base, variant, hload, hbase, hvariant,
    (linked_iff_marked hload).mpr ⟨hmem, _, hmarker, .inl ⟨hlabel, rfl⟩⟩⟩

/-- A definition, and one of an outer namespace that names it across the dot. -/
def nestedNamespaces : List Extension :=
  [{ label := "a.b"
     title := "Inner"
     instructions := [
       { mnemonic := "c"
         operands := Bundled.registers 32 true
         layout := .registerForm 43 0 1
         template := some "(add rs1 rs2)" }] },
    { label := "a"
      title := "Outer"
      instructions := [
        { mnemonic := "cr"
          operands := Bundled.registers 32 true
          layout := .registerForm 43 0 2
          marker := some (.rounding "b.c") }] }]

/-- A definition is linked with a rounding form of another namespace. -/
theorem linked_across_namespaces :
    ∃ r base variant, load {} nestedNamespaces = .ok r ∧ base ∈ r.entries ∧
      r.roundingVariant? base = some variant ∧ base.label = "a.b" ∧ variant.label = "a" ∧
      base.definition.mnemonic = "c" ∧ variant.definition.rounds? = some "b.c" := by
  have hrun : (load {} nestedNamespaces).toOption.any (fun r => r.entries.any fun base =>
      (r.roundingVariant? base).any fun variant => base.label = "a.b" && variant.label = "a" &&
        base.definition.mnemonic = "c" && variant.definition.rounds? = some "b.c") = true := by
    decide +kernel
  obtain ⟨r, hload, hcase⟩ := Option.any_eq_true _ _ |>.mp hrun
  obtain ⟨base, hmem, hlinked⟩ := List.any_eq_true.mp hcase
  obtain ⟨variant, hvariant, hnames⟩ := Option.any_eq_true _ _ |>.mp hlinked
  simp only [Bool.and_eq_true, decide_eq_true_eq] at hnames
  obtain ⟨⟨⟨hinner, houter⟩, hmnemonic⟩, hmarker⟩ := hnames
  exact ⟨r, base, variant, eq_ok_of_toOption hload, hmem, hvariant, hinner, houter, hmnemonic,
    hmarker⟩

end Registry
end CustomIsa
