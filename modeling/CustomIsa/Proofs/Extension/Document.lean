import CustomIsa.Extension.Printer
import CustomIsa.Extension.Reader
import CustomIsa.Proofs.Json.Text
/-! # Extension documents read back

The document of an extension denotes that extension, whatever its texts hold and whichever optional
parts its definitions have. The one condition is on the numbers: they are written in full, and only
a number below `2 ^ 32` is read. -/
namespace CustomIsa

/-! ## Reading what a record holds -/

namespace Json

section
variable {α : Type} {read : Json → Option α} {write : α → Json} {members : List (String × Json)}

@[simp]
theorem string?_text (s : String) : string? (text s) = some s := rfl

@[simp]
theorem required_some (v : Json) : required read (some v) = read v := rfl

@[simp]
theorem withDefault_some (default : α) (v : Json) :
    withDefault default read (some v) = read v := rfl

theorem nat32?_nat {n m : Nat} : nat32? (nat n) = some m ↔ n = m ∧ n < 2 ^ 32 := by
  have hdigits : Text.natOfDigits? 10 (toString n).toList = some n := by
    rw [Text.toList_natToString, Text.natOfDigits?_toDigits (by decide) (by decide)]
  show ((Text.natOfDigits? 10 (toString n).toList).filter (· < 2 ^ 32)) = some m ↔ _
  rw [hdigits, Option.filter_eq_some_iff, Option.some.injEq, decide_eq_true_eq]
  exact and_congr_right fun h => h ▸ Iff.rfl

/-- A list is read back as itself if and only if each of its items is. -/
theorem list?_map {P : α → Prop} (hitem : ∀ x, read (write x) = some x ↔ P x) (xs : List α) :
    list? read (.array (xs.map write)) = some xs ↔ ∀ x ∈ xs, P x := by
  rw [list?]
  induction xs with
  | nil => simp
  | cons x xs ih =>
    rw [List.map_cons, List.mapM_cons, List.forall_mem_cons, ← hitem, ← ih]
    simp [Option.bind_eq_some_iff]

/-- A part that may be absent is read back as itself if it is when it is present. -/
theorem optional?_map (hpart : ∀ x, optional? read (some (write x)) = some (some x))
    (part : Option α) : optional? read (part.map write) = some part := by
  cases part with
  | none => rfl
  | some x => exact hpart x

theorem valuesOf_record (key : String) (members : List (String × Json)) :
    valuesOf key (members.map fun m => (some m.1, m.2)) =
      (members.filter fun m => m.1 = key).map Prod.snd := by
  simp [valuesOf, List.filter_map, Function.comp_def]

/-- With no key twice, the value of a key is the one that stands under it. -/
theorem valueOf?_record (hkeys : (members.map Prod.fst).Nodup) (key : String) :
    valueOf? (members.map fun m => (some m.1, m.2)) key = some (members.lookup key) := by
  rw [valueOf?, valuesOf_record]
  induction members with
  | nil => rfl
  | cons m members ih =>
    obtain ⟨hfresh, hkeys⟩ := List.nodup_cons.mp hkeys
    by_cases hm : m.1 = key
    · have hothers : members.filter (fun m => m.1 = key) = [] := by
        rw [List.filter_eq_nil_iff]
        intro other hother heq
        rw [hm, ← of_decide_eq_true heq] at hfresh
        exact hfresh (List.mem_map_of_mem hother)
      rw [List.filter_cons_of_pos (by simpa using hm), hothers, List.lookup_cons,
        beq_iff_eq.mpr hm.symm]
      rfl
    · have hother : (key == m.1) = false := beq_eq_false_iff_ne.mpr (Ne.symm hm)
      rw [List.filter_cons_of_neg (by simpa using hm), ih hkeys, List.lookup_cons, hother]

/-- A record whose keys are some of the names, in their order, gives for each name the value that
stands under it. -/
theorem fields?_record {names : List String} (hnames : names.Nodup)
    (hkeys : (members.map Prod.fst).Sublist names) :
    fields? names (record members) = some (names.map fun name => members.lookup name) := by
  have hall : (members.map fun m => (some m.1, m.2)).all (fun m => m.1.isSome) = true := by
    simp
  show (if (members.map fun m => (some m.1, m.2)).all (fun m => m.1.isSome) then
    names.mapM (valueOf? (members.map fun m => (some m.1, m.2))) else none) = _
  rw [if_pos hall, funext (valueOf?_record (hnames.sublist hkeys))]
  exact List.mapM_pure

end
end Json

/-! ## The numbers of an extension -/

/-- The numbers of the operand have 32 bits. -/
def Operand.Fits32 (op : Operand) : Prop := op.width < 2 ^ 32 ∧ op.bias < 2 ^ 32

/-- The numbers of the range have 32 bits. -/
def FixedRange.Fits32 (f : FixedRange) : Prop :=
  f.hi < 2 ^ 32 ∧ f.lo < 2 ^ 32 ∧ f.value < 2 ^ 32

/-- The numbers of the segment have 32 bits. -/
def Segment.Fits32 (s : Segment) : Prop :=
  s.hi < 2 ^ 32 ∧ s.lo < 2 ^ 32 ∧ s.offset < 2 ^ 32

/-- The numbers of the layout have 32 bits. -/
def Layout.Fits32 (l : Layout) : Prop :=
  (∀ f ∈ l.fixed, f.Fits32) ∧ ∀ s ∈ l.fields, s.Fits32

/-- The numbers of the definition have 32 bits. -/
def Definition.Fits32 (d : Definition) : Prop :=
  (∀ op ∈ d.operands, op.Fits32) ∧ d.layout.Fits32

/-- The numbers of the extension have 32 bits. -/
def Extension.Fits32 (e : Extension) : Prop := ∀ d ∈ e.instructions, d.Fits32

namespace Extension
open Json

theorem kind?_kindName (k : OperandKind) : kind? (text (kindName k)) = some k := by
  cases k <;> rfl

theorem direction?_directionName (d : Direction) :
    direction? (text (directionName d)) = some d := by
  cases d <;> rfl

theorem variant?_variantName (v : Variant) : variant? (text (variantName v)) = some v := by
  cases v <;> rfl

theorem optional?_markerToJson (m : Marker) :
    optional? marker? (some (markerToJson m)) = some (some m) := by
  cases m <;> rfl

theorem operand?_operandToJson (op : Operand) :
    operand? (operandToJson op) = some op ↔ op.Fits32 := by
  have hfields : fields? ["name", "kind", "width", "signed", "direction", "bias"]
      (operandToJson op) = some [some (text op.name), some (text (kindName op.kind)),
        some (nat op.width), some (.bool op.signed), some (text (directionName op.direction)),
        some (nat op.bias)] :=
    fields?_record (by decide) (.refl _)
  rw [operand?, hfields]
  simp [bool?, kind?_kindName, direction?_directionName, Option.bind_eq_some_iff, nat32?_nat,
    Operand.Fits32]

theorem fixedRange?_record (f : FixedRange) :
    fixedRange? (record [("hi", nat f.hi), ("lo", nat f.lo), ("value", nat f.value)]) = some f ↔
      f.Fits32 := by
  have hfields : fields? ["hi", "lo", "value"]
      (record [("hi", nat f.hi), ("lo", nat f.lo), ("value", nat f.value)]) =
        some [some (nat f.hi), some (nat f.lo), some (nat f.value)] :=
    fields?_record (by decide) (.refl _)
  rw [fixedRange?, hfields]
  simp [Option.bind_eq_some_iff, nat32?_nat, FixedRange.Fits32]

theorem segment?_record (s : Segment) :
    segment? (record [("operand", text s.operand), ("hi", nat s.hi), ("lo", nat s.lo),
      ("offset", nat s.offset)]) = some s ↔ s.Fits32 := by
  have hfields : fields? ["operand", "hi", "lo", "offset"]
      (record [("operand", text s.operand), ("hi", nat s.hi), ("lo", nat s.lo),
        ("offset", nat s.offset)]) =
        some [some (text s.operand), some (nat s.hi), some (nat s.lo), some (nat s.offset)] :=
    fields?_record (by decide) (.refl _)
  rw [segment?, hfields]
  simp [Option.bind_eq_some_iff, nat32?_nat, Segment.Fits32]

theorem layout?_layoutToJson (l : Layout) : layout? (layoutToJson l) = some l ↔ l.Fits32 := by
  have hfields : fields? ["fixed", "fields"] (layoutToJson l) = some [
      some (.array (l.fixed.map fun f =>
        record [("hi", nat f.hi), ("lo", nat f.lo), ("value", nat f.value)])),
      some (.array (l.fields.map fun s =>
        record [("operand", text s.operand), ("hi", nat s.hi), ("lo", nat s.lo),
          ("offset", nat s.offset)]))] :=
    fields?_record (by decide) (.refl _)
  rw [layout?, hfields, Layout.Fits32, ← list?_map fixedRange?_record,
    ← list?_map segment?_record]
  cases l
  simp [Option.bind_eq_some_iff]

/-- An optional part adds at most its own key. -/
theorem optional_key_sublist {α : Type} (part : Option α) (key : String) (write : α → Json) :
    ((part.map fun v => (key, write v)).toList.map Prod.fst).Sublist [key] := by
  cases part with
  | none => exact List.nil_sublist _
  | some v => exact .refl _

theorem fields?_definitionToJson (d : Definition) :
    fields? ["mnemonic", "variant", "operands", "encoding", "template", "marker", "intrinsic"]
      (definitionToJson d) = some [some (text d.mnemonic), some (text (variantName d.variant)),
        some (.array (d.operands.map operandToJson)), some (layoutToJson d.layout),
        d.template.map text, d.marker.map markerToJson, d.intrinsic.map text] := by
  rw [definitionToJson, fields?_record (by decide)]
  · cases d.template <;> cases d.marker <;> cases d.intrinsic <;> rfl
  · rw [List.map_append, List.map_append, List.map_append]
    exact (((List.Sublist.refl _).append (optional_key_sublist d.template "template" text)).append
      (optional_key_sublist d.marker "marker" markerToJson)).append
      (optional_key_sublist d.intrinsic "intrinsic" text)

theorem definition?_definitionToJson (d : Definition) :
    definition? (definitionToJson d) = some d ↔ d.Fits32 := by
  rw [definition?, fields?_definitionToJson, Definition.Fits32, ← list?_map operand?_operandToJson,
    ← layout?_layoutToJson]
  have htext : ∀ part : Option String, optional? string? (part.map text) = some part :=
    optional?_map fun _ => rfl
  cases d
  simp [Option.bind_eq_some_iff, variant?_variantName, htext, optional?_map optional?_markerToJson]

theorem ofJson?_toJson (e : Extension) : ofJson? e.toJson = some e ↔ e.Fits32 := by
  have hfields : fields? ["namespace", "name", "instructions"] e.toJson = some [
      some (text e.label), some (text e.title),
      some (.array (e.instructions.map definitionToJson))] :=
    fields?_record (by decide) (.refl _)
  rw [ofJson?, hfields, Fits32, ← list?_map definition?_definitionToJson]
  cases e
  simp [Option.bind_eq_some_iff]

/-! ## The document -/

theorem writable_operandToJson (op : Operand) : Writable (operandToJson op) := by
  refine .record ?_
  simp [Writable.text, Writable.nat, Writable.bool]

theorem writable_layoutToJson (l : Layout) : Writable (layoutToJson l) := by
  have hrange : ∀ f : FixedRange,
      Writable (record [("hi", nat f.hi), ("lo", nat f.lo), ("value", nat f.value)]) :=
    fun f => .record (by simp [Writable.nat])
  have hsegment : ∀ s : Segment, Writable (record [("operand", text s.operand), ("hi", nat s.hi),
      ("lo", nat s.lo), ("offset", nat s.offset)]) :=
    fun s => .record (by simp [Writable.text, Writable.nat])
  refine .record ?_
  rintro m (_ | ⟨_, _ | ⟨_, ⟨⟩⟩⟩)
  · exact .array (List.forall_mem_map.mpr fun f _ => hrange f)
  · exact .array (List.forall_mem_map.mpr fun s _ => hsegment s)

theorem writable_markerToJson (m : Marker) : Writable (markerToJson m) := by
  cases m with
  | rounding base => exact .record (by simp [Writable.text])
  | saturating => exact .text _

theorem writable_definitionToJson (d : Definition) : Writable (definitionToJson d) := by
  have hoperands : Writable (.array (d.operands.map operandToJson)) :=
    .array (List.forall_mem_map.mpr fun op _ => writable_operandToJson op)
  have hlayout := writable_layoutToJson d.layout
  refine .record ?_
  simp [or_imp, forall_and, Writable.text, hoperands, hlayout, writable_markerToJson]

theorem writable_toJson (e : Extension) : Writable e.toJson := by
  have hinstructions : Writable (.array (e.instructions.map definitionToJson)) :=
    .array (List.forall_mem_map.mpr fun d _ => writable_definitionToJson d)
  refine .record ?_
  simp [Writable.text, hinstructions]

/-- The document of an extension denotes that extension if and only if its numbers have 32 bits,
whatever its texts hold and whichever of the optional parts are present. -/
theorem ofText?_toText (e : Extension) : ofText? e.toText = some e ↔ e.Fits32 := by
  rw [ofText?, toText, read?_pretty (writable_toJson e), Option.bind_some]
  exact ofJson?_toJson e

end Extension
end CustomIsa
