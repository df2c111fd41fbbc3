import CustomIsa.Proofs.Assembly.Line
import CustomIsa.Proofs.Registry.Declared
/-! # Names in assembly lines

A loaded definition has a name without blanks, since namespaces and mnemonics are single words
(`Registry.not_blank_name`). That leaves one mark with a meaning in a line: what follows a `#` is a
comment, and a name may have one. So a listed instruction is read as that instruction, whatever
values its operands have, if and only if there is no `#` in its name
(`Registry.parseLine_render_iff`). Otherwise the line is cut short, and it may then be read as
another instruction (`Registry.marked_name_misread`). -/
namespace CustomIsa

theorem Text.not_blank_of_word {s : String} (h : ¬(s = "" ∨ hasBlank s)) :
    ∀ c ∈ s.toList, isBlank c = false := by
  intro c hc
  rw [Bool.eq_false_iff]
  exact fun hblank => h (.inr (List.any_eq_true.mpr ⟨c, hc, hblank⟩))

/-- A checked definition has a mnemonic without blanks. -/
theorem Definition.not_blank_mnemonic {d : Definition} (h : d.check = .ok ()) :
    ∀ c ∈ d.mnemonic.toList, Text.isBlank c = false := by
  rw [check] at h
  split at h
  · cases h
  · rename_i hword
    exact Text.not_blank_of_word hword

namespace Registry
open Assembly

section
variable {settings : RegistrySettings} {extensions : List Extension} {r : Registry}
  (hload : load settings extensions = .ok r) {e : Entry} (he : e ∈ r.entries)
include hload he

theorem not_blank_label : ∀ c ∈ e.label.toList, Text.isBlank c = false := by
  obtain ⟨x, hx, hdeclared⟩ := List.mem_flatMap.mp (mem_declared_of_load hload he)
  obtain ⟨d, -, heq⟩ := List.mem_map.mp hdeclared
  have hlabel : x.label = e.label := congrArg Declaration.label heq
  exact hlabel ▸ Text.not_blank_of_word ((load_ok_iff.mp ⟨r, hload⟩).labels x hx)

/-- The name of a loaded definition has no blanks. -/
theorem not_blank_name : ∀ c ∈ e.name.toList, Text.isBlank c = false := by
  have hchecked := (loaded_of_load hload).wellFormed.checked e he
  rw [Entry.name, String.toList_append, String.toList_append]
  refine List.forall_mem_append.mpr ⟨List.forall_mem_append.mpr ⟨?_, ?_⟩, ?_⟩
  · exact not_blank_label hload he
  · exact List.forall_mem_singleton.mpr rfl
  · exact Definition.not_blank_mnemonic hchecked

/-- **A loaded definition can be written down if and only if there is no `#` in its name.** Let the
operands of the definition, and nothing else, be bound, registers to numbers below 32 and immediates
to any numbers of 64 bits. Then the listed instruction is read as the same definition with the same
values, however registers and immediates are listed, if no `#` is in the name, and only then. -/
theorem parseLine_render_iff {b : Bindings} (hb : e.definition.BoundBy b)
    (listing : ListingSettings) :
    r.parseLine (render listing e b) = .ok (e, b) ↔ '#' ∉ e.name.toList := by
  have hr := loaded_of_load hload
  constructor
  · -- the name that is cut out of a line has no mark
    intro hparse hmark
    have hname := (hr.find?_eq_some_iff.mp (find?_of_parseLine hparse)).2
    exact (not_blank_splitLine _ '#' (hname ▸ hmark)).2 rfl
  · intro hmark
    have hfind : r.find? e.name = some e := hr.find?_eq_some_iff.mpr ⟨he, rfl⟩
    have hname : LineName e.name := by
      refine ⟨?_, not_blank_name hload he, fun c hc hmarked => hmark (hmarked ▸ hc)⟩
      rw [Entry.name, String.toList_append, String.toList_append]
      simp
    exact parseLine_of_boundBy hname hfind hb listing

end

/-- A branch with the least immediate of 64 bits, which no word has room for, is written with the
names of the calling convention and in hexadecimal. -/
theorem parseLine_render_iff_branch :
    ∃ r e, load {} [branches] = .ok r ∧ e ∈ r.entries ∧ '#' ∉ e.name.toList ∧
      e.definition.BoundBy (.ofList [("off", -2 ^ 63), ("rs", 3)]) ∧
      render ⟨true, true⟩ e (.ofList [("off", -2 ^ 63), ("rs", 3)]) =
        "x.b -0x8000000000000000, gp" ∧
      r.parseLine "x.b -0x8000000000000000, gp" =
        .ok (e, .ofList [("off", -2 ^ 63), ("rs", 3)]) := by
  have hrun : (load {} [branches]).toOption.any (fun r => r.entries.any fun e =>
      decide ('#' ∉ e.name.toList) &&
      decide (e.definition.BoundBy (.ofList [("off", -2 ^ 63), ("rs", 3)])) &&
      decide (render ⟨true, true⟩ e (.ofList [("off", -2 ^ 63), ("rs", 3)]) =
        "x.b -0x8000000000000000, gp")) = true := by
    decide +kernel
  obtain ⟨r, hload, hany⟩ := Option.any_eq_true _ _ |>.mp hrun
  obtain ⟨e, he, hcase⟩ := List.any_eq_true.mp hany
  simp only [Bool.and_eq_true, decide_eq_true_eq] at hcase
  obtain ⟨⟨hmark, hb⟩, htext⟩ := hcase
  have hload := eq_ok_of_toOption hload
  refine ⟨r, e, hload, he, hmark, hb, htext, ?_⟩
  rw [← htext]
  exact (parseLine_render_iff hload he hb ⟨true, true⟩).mpr hmark

/-- A definition without operands, and one whose name goes on from there with a `#`. -/
def markedNames : Extension where
  label := "x"
  instructions := [
    { mnemonic := "a"
      operands := []
      layout := ⟨[⟨6, 0, 0x2b⟩, ⟨31, 7, 1⟩], []⟩ },
    { mnemonic := "a#b"
      operands := [⟨"imm", .immediate, 12, true, .input, 0⟩]
      layout := ⟨[⟨6, 0, 0x2b⟩, ⟨31, 19, 7⟩], [⟨"imm", 18, 7, 0⟩]⟩ }]

/-- A loaded definition with a `#` in its name is written as a line that is read as another
definition. -/
theorem marked_name_misread :
    ∃ r e other, load {} [markedNames] = .ok r ∧ e ∈ r.entries ∧ other ∈ r.entries ∧
      e.definition.BoundBy (.ofList [("imm", 5)]) ∧
      render {} e (.ofList [("imm", 5)]) = "x.a#b 5" ∧
      (∃ b, r.parseLine "x.a#b 5" = .ok (other, b)) ∧ other.name = "x.a" ∧
      r.parseLine (render {} e (.ofList [("imm", 5)])) ≠ .ok (e, .ofList [("imm", 5)]) := by
  have hrun : (load {} [markedNames]).toOption.any (fun r => (r.find? "x.a#b").any fun e =>
      decide (e.definition.BoundBy (.ofList [("imm", 5)])) &&
      decide (render {} e (.ofList [("imm", 5)]) = "x.a#b 5") &&
      (r.parseLine "x.a#b 5").toOption.any fun p => p.1.name = "x.a") = true := by
    decide +kernel
  obtain ⟨r, hload, hfound⟩ := Option.any_eq_true _ _ |>.mp hrun
  obtain ⟨e, hfind, hcase⟩ := Option.any_eq_true _ _ |>.mp hfound
  simp only [Bool.and_eq_true, decide_eq_true_eq] at hcase
  obtain ⟨⟨hb, htext⟩, hread⟩ := hcase
  obtain ⟨⟨other, b⟩, hparse, hother⟩ := Option.any_eq_true _ _ |>.mp hread
  have hother : other.name = "x.a" := of_decide_eq_true hother
  have hparse := eq_ok_of_toOption hparse
  have hload := eq_ok_of_toOption hload
  have hr := loaded_of_load hload
  have he := hr.find?_eq_some_iff.mp hfind
  refine ⟨r, e, other, hload, he.1, (hr.find?_eq_some_iff.mp (find?_of_parseLine hparse)).1,
    hb, htext, ⟨b, hparse⟩, hother, fun hsame => ?_⟩
  rw [htext, hparse] at hsame
  have hname : "x.a" = "x.a#b" := by
    rw [← hother, ← he.2, (Prod.mk.inj (Except.ok.inj hsame)).1]
  exact absurd hname (by decide)

end Registry
end CustomIsa
