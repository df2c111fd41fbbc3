import Mathlib.Data.List.TakeWhile
import CustomIsa.Assembly.Listing
import CustomIsa.Proofs.Registry.RoundTrip
import CustomIsa.Proofs.Text.Integer
import CustomIsa.Proofs.Text.Pieces
/-! # Listed lines are assembled again

Every operand is listed as a piece of text without blanks, commas and comment marks, whichever way
registers and immediates are written, and the piece is read as the value it was listed for
(`Assembly.operandValue_operandText`). So a listed line is taken apart into the pieces it was put
together from (`Registry.parseLine_of_boundBy`), and a word that came from a line is listed as a
line for the same word (`Registry.assemble_listed`). -/
namespace CustomIsa

namespace Assembly

/-! ## Pieces of a line -/

/-- The character separates nothing in a line. -/
def isPlain (c : Char) : Bool := !Text.isBlank c && c ≠ ',' && c ≠ '#'

theorem isPlain_iff {c : Char} : isPlain c = true ↔ Text.isBlank c = false ∧ c ≠ ',' ∧ c ≠ '#' := by
  simp [isPlain, and_assoc]

/-- The text can stand as an operand in a line. -/
structure Piece (cs : List Char) : Prop where
  ne_nil : cs ≠ []
  plain : ∀ c ∈ cs, isPlain c = true

namespace Piece
variable {cs : List Char}

theorem not_blank (h : Piece cs) : ∀ c ∈ cs, Text.isBlank c = false :=
  fun c hc => (isPlain_iff.mp (h.plain c hc)).1

theorem not_comma (h : Piece cs) : ∀ c ∈ cs, decide (c = ',') = false :=
  fun c hc => decide_eq_false (isPlain_iff.mp (h.plain c hc)).2.1

theorem cons {c : Char} (hc : isPlain c = true) (h : Piece cs) : Piece (c :: cs) :=
  ⟨List.cons_ne_nil c cs, List.forall_mem_cons.mpr ⟨hc, h.plain⟩⟩

end Piece

/-- A digit of any base is no separator. -/
theorem isPlain_of_isDigitOf {base : Nat} {c : Char} (h : Text.isDigitOf base c = true) :
    isPlain c = true := by
  have hrange : 0x30 ≤ c.toNat ∧ c.toNat ≤ 0x66 := by
    obtain ⟨d, hd⟩ := Option.isSome_iff_exists.mp h
    rw [Text.digitValue?, Option.filter_eq_some_iff] at hd
    have hvalue := hd.1
    split at hvalue
    · omega
    · split at hvalue
      · omega
      · split at hvalue
        · omega
        · cases hvalue
  rw [isPlain_iff]
  refine ⟨?_, ?_, ?_⟩
  · simp only [Text.isBlank, Bool.or_eq_false_iff, Bool.and_eq_false_iff, decide_eq_false_iff_not,
      beq_eq_false_iff_ne]
    omega
  · rintro rfl
    exact absurd hrange.1 (by decide)
  · rintro rfl
    exact absurd hrange.1 (by decide)

theorem piece_toDigits {base : Nat} (h : 1 < base) (hbase : base ≤ 16) (n : Nat) :
    Piece (Nat.toDigits base n) :=
  ⟨Nat.toDigits_ne_nil, fun _ hc =>
    isPlain_of_isDigitOf (Text.isDigitOf_of_mem_toDigits h hbase hc)⟩

/-! ## Registers -/

/-- A listed register is read as that register, by its number and by its name. -/
theorem ofName?_registerText (settings : ListingSettings) {n : Nat} (h : n < Register.count) :
    Register.ofName? (registerText settings n) = some n ∧
      Piece (registerText settings n).toList := by
  have hall : ∀ n < 32, ∀ abi : Bool,
      Register.ofName? (registerText ⟨abi, false⟩ (Int.ofNat n)) = some n ∧
        (registerText ⟨abi, false⟩ (Int.ofNat n)).toList ≠ [] ∧
        (registerText ⟨abi, false⟩ (Int.ofNat n)).toList.all isPlain = true := by
    decide +kernel
  obtain ⟨hname, hne, hplain⟩ := hall n h settings.abiNames
  exact ⟨hname, hne, List.all_eq_true.mp hplain⟩

/-! ## Immediates -/

/-- A listed immediate is its magnitude, with a minus sign before it if it is negative. -/
theorem toList_immediateText (settings : ListingSettings) (v : Int) :
    ∃ digits, (immediateText settings v).toList = (if v < 0 then '-' :: digits else digits) ∧
      Text.Magnitude ['x', 'X'] none digits v.natAbs ∧ Piece digits := by
  rw [immediateText]
  cases settings.hexImmediates with
  | true =>
    refine ⟨'0' :: 'x' :: Nat.toDigits 16 v.natAbs, ?_,
      .hexadecimal List.mem_cons_self (.bare (Text.numeral_toDigits (by decide) (by decide) _)),
      ((piece_toDigits (by decide) (by decide) _).cons rfl).cons rfl⟩
    rw [if_pos rfl, String.toList_append, Text.hex, String.toList_ofList]
    split <;> rfl
  | false =>
    refine ⟨Nat.toDigits 10 v.natAbs, ?_,
      .decimal (Text.numeral_toDigits (by decide) (by decide) _),
      piece_toDigits (by decide) (by decide) _⟩
    rw [if_neg Bool.false_ne_true, Text.toList_intToString]
    cases v with
    | ofNat n =>
      have hpos : ¬Int.ofNat n < 0 := Int.not_lt.mpr (Int.natCast_nonneg n)
      rw [if_neg hpos]
      exact Text.toList_natToString n
    | negSucc n =>
      rw [if_pos (Int.negSucc_lt_zero n)]
      exact congrArg _ (Text.toList_natToString (n + 1))

/-- A listed immediate of 64 bits is read as that immediate. -/
theorem immediate?_immediateText (settings : ListingSettings) {v : Int}
    (h : Bits.inInt64 v = true) :
    immediate? (immediateText settings v) = some v ∧ Piece (immediateText settings v).toList := by
  obtain ⟨digits, htext, hvalue, hpiece⟩ := toList_immediateText settings v
  rw [Text.immediate?_eq_some_iff, htext]
  by_cases hneg : v < 0
  · rw [if_pos hneg]
    refine ⟨⟨⟨none, ?_⟩, h⟩, hpiece.cons rfl⟩
    have hminus := Text.Spells.minus hvalue
    rwa [show -(v.natAbs : Int) = v by omega] at hminus
  · rw [if_neg hneg]
    refine ⟨⟨⟨none, ?_⟩, h⟩, hpiece⟩
    rw [show (v.natAbs : Int) = v by omega] at hvalue
    exact .plain hvalue

end Assembly

/-- The value can be written for the operand: a register number, or an immediate of 64 bits. -/
def Operand.Writable (op : Operand) (v : Int) : Prop :=
  (op.kind = .register → 0 ≤ v ∧ v < Register.count) ∧
    (op.kind = .immediate → Bits.inInt64 v = true)

instance (op : Operand) (v : Int) : Decidable (op.Writable v) :=
  inferInstanceAs (Decidable (_ ∧ _))

/-- A value that can be encoded can be written. -/
theorem Operand.writable_of_pattern {op : Operand} {v : Int} {pattern : Nat}
    (h : Codec.pattern? op v = some pattern) : op.Writable v := by
  rw [Codec.pattern?] at h
  constructor
  · intro hkind
    rw [hkind] at h
    simp only at h
    split at h
    · omega
    · cases h
  · intro hkind
    rw [hkind] at h
    simp only at h
    split at h
    · rename_i hrange
      exact inInt64_of_inRange hrange
    · cases h

namespace Assembly

/-- **A listed operand is read as its value**, if the value can be written. -/
theorem operandValue_operandText (settings : ListingSettings) {bindings : Bindings} {op : Operand}
    {v : Int} (hbound : bindings.get? op.name = some v) (hv : op.Writable v) :
    operandValue op (operandText settings bindings op) = .ok v ∧
      Piece (operandText settings bindings op).toList := by
  rw [operandText, hbound, Option.getD_some, operandValue]
  cases hkind : op.kind with
  | register =>
    obtain ⟨hlo, hhi⟩ := hv.1 hkind
    obtain ⟨n, rfl⟩ := Int.eq_ofNat_of_zero_le hlo
    obtain ⟨hname, hpiece⟩ := ofName?_registerText settings (Int.ofNat_lt.mp hhi)
    simp only [hname]
    exact ⟨trivial, hpiece⟩
  | immediate =>
    obtain ⟨himm, hpiece⟩ := immediate?_immediateText settings (hv.2 hkind)
    simp only [himm]
    exact ⟨trivial, hpiece⟩

/-! ## Lines -/

/-- Operands as they are put together in a line. -/
def joined (pieces : List (List Char)) : List Char := [',', ' '].intercalate pieces

theorem joined_cons_cons (cs ds : List Char) (pieces : List (List Char)) :
    joined (cs :: ds :: pieces) = cs ++ ',' :: ' ' :: joined (ds :: pieces) := by
  rw [joined, List.intercalate_cons_cons, ← joined, List.append_assoc]
  rfl

/-- Splitting at commas and trimming takes a line of operands apart again. -/
theorem map_trimChars_splitAll_joined {pieces : List (List Char)} (hne : pieces ≠ [])
    (h : ∀ cs ∈ pieces, Piece cs) :
    (Text.splitAll (· = ',') (joined pieces)).map Text.trimChars = pieces := by
  have htrim : ∀ cs ∈ pieces, Text.trimChars cs = cs :=
    fun cs hcs => Text.trimChars_of_tight (Text.tight_of_forall (h cs hcs).not_blank)
  induction pieces with
  | nil => exact absurd rfl hne
  | cons cs pieces ih =>
    obtain ⟨hcs, hpieces⟩ := List.forall_mem_cons.mp h
    obtain ⟨htrimcs, htrimpieces⟩ := List.forall_mem_cons.mp htrim
    cases pieces with
    | nil =>
      rw [joined, List.intercalate_singleton, Text.splitAll_of_forall hcs.not_comma, List.map_cons,
        htrimcs, List.map_nil]
    | cons ds pieces =>
      rw [joined_cons_cons, Text.splitAll_append hcs.not_comma rfl, List.map_cons, htrimcs,
        Text.map_trimChars_splitAll_cons rfl rfl, ih (List.cons_ne_nil _ _) hpieces htrimpieces]

/-- The operands of a line neither start nor end with a blank, and no comment starts in them. -/
theorem joined_spec {pieces : List (List Char)} (hne : pieces ≠ []) (h : ∀ cs ∈ pieces, Piece cs) :
    joined pieces ≠ [] ∧ Text.Tight (joined pieces) ∧ ∀ c ∈ joined pieces, c ≠ '#' := by
  induction pieces with
  | nil => exact absurd rfl hne
  | cons cs pieces ih =>
    obtain ⟨hcs, hpieces⟩ := List.forall_mem_cons.mp h
    have htight := Text.tight_of_forall hcs.not_blank
    have hmark : ∀ c ∈ cs, c ≠ '#' := fun c hc => (isPlain_iff.mp (hcs.plain c hc)).2.2
    cases pieces with
    | nil =>
      rw [joined, List.intercalate_singleton]
      exact ⟨hcs.ne_nil, htight, hmark⟩
    | cons ds pieces =>
      obtain ⟨hne', htight', hmark'⟩ := ih (List.cons_ne_nil _ _) hpieces
      rw [joined_cons_cons]
      refine ⟨by simp, ?_, fun c hc => ?_⟩
      · exact Text.tight_append hcs.ne_nil htight [',', ' '] hne' htight'
      · rcases List.mem_append.mp hc with hc | hc
        · exact hmark c hc
        · rcases List.mem_cons.mp hc with rfl | hc
          · decide
          · rcases List.mem_cons.mp hc with rfl | hc
            · decide
            · exact hmark' c hc

/-- The name can stand at the start of a line. -/
structure LineName (name : String) : Prop where
  ne_nil : name.toList ≠ []
  not_blank : ∀ c ∈ name.toList, Text.isBlank c = false
  not_mark : ∀ c ∈ name.toList, c ≠ '#'

/-- The name that is cut out of a line has no blanks and no comment mark. -/
theorem not_blank_splitLine (line : String) :
    ∀ c ∈ (splitLine line).1.toList, Text.isBlank c = false ∧ c ≠ '#' := by
  have hmark : ∀ c ∈ Text.trimChars (line.toList.takeWhile (· ≠ '#')), c ≠ '#' := fun c hc => by
    have hall := List.all_eq_true.mp List.all_takeWhile c (Text.mem_of_mem_trimChars hc)
    simpa using hall
  rw [splitLine]
  split
  · rename_i name rest hsplit
    obtain ⟨⟨d, hcode⟩, hblank⟩ := Text.splitFirst_eq_some hsplit
    rw [String.toList_ofList]
    exact fun c hc => ⟨hblank c hc, hmark c (hcode ▸ List.mem_append_left _ hc)⟩
  · rename_i hsplit
    rw [String.toList_ofList]
    exact fun c hc => ⟨Text.splitFirst_eq_none_iff.mp hsplit c hc, hmark c hc⟩

/-- A line of a name alone. -/
theorem splitLine_name {name : String} (h : LineName name) : splitLine name = (name, []) := by
  have hmarks : name.toList.takeWhile (· ≠ '#') = name.toList :=
    List.takeWhile_eq_self_iff.mpr fun c hc => decide_eq_true (h.not_mark c hc)
  rw [splitLine, hmarks, Text.trimChars_of_tight (Text.tight_of_forall h.not_blank)]
  simp only [Text.splitFirst_eq_none_iff.mpr h.not_blank, String.ofList_toList]

/-- A line of a name and operands. -/
theorem splitLine_operands {name : String} (h : LineName name) {rest : List Char}
    (hne : rest ≠ []) (htight : Text.Tight rest) (hmark : ∀ c ∈ rest, c ≠ '#') {line : String}
    (hline : line.toList = name.toList ++ ' ' :: rest) : splitLine line = (name, rest) := by
  have hmarks : line.toList.takeWhile (· ≠ '#') = line.toList := by
    refine List.takeWhile_eq_self_iff.mpr fun c hc => decide_eq_true ?_
    rw [hline] at hc
    rcases List.mem_append.mp hc with hc | hc
    · exact h.not_mark c hc
    · rcases List.mem_cons.mp hc with rfl | hc
      · decide
      · exact hmark c hc
  have hall : Text.Tight line.toList := by
    rw [hline]
    exact Text.tight_append h.ne_nil (Text.tight_of_forall h.not_blank) [' '] hne htight
  rw [splitLine, hmarks, Text.trimChars_of_tight hall, hline,
    Text.splitFirst_append h.not_blank rfl]
  simp only [String.ofList_toList, Text.trimChars_of_tight htight]

theorem splitOperands_joined {pieces : List (List Char)} (hne : pieces ≠ [])
    (h : ∀ cs ∈ pieces, Piece cs) : splitOperands (joined pieces) = pieces.map String.ofList := by
  rw [splitOperands, if_neg (joined_spec hne h).1]
  have hmap := congrArg (List.map String.ofList) (map_trimChars_splitAll_joined hne h)
  rwa [List.map_map] at hmap

/-- Operands that are read as their values are bound to them. -/
theorem bindTexts_zip {value : Operand → Int} {text : Operand → String} {ops : List Operand}
    (h : ∀ op ∈ ops, operandValue op (text op) = .ok (value op)) (start : Bindings) :
    bindTexts start (ops.zip (ops.map text)) =
      .ok ((ops.map fun op => (op.name, value op)).foldl (fun m e => m.insert e.1 e.2) start) := by
  induction ops generalizing start with
  | nil => rfl
  | cons op ops ih =>
    obtain ⟨hop, hops⟩ := List.forall_mem_cons.mp h
    rw [List.map_cons, List.zip_cons_cons, bindTexts, hop]
    exact ih hops _

end Assembly

/-- The bindings give every operand of the definition a value that can be written, and name nothing
else. -/
structure Definition.BoundBy (d : Definition) (bindings : Bindings) : Prop where
  bound : ∀ op ∈ d.operands, ∃ v, bindings.get? op.name = some v ∧ op.Writable v
  named : ∀ name ∈ bindings.names, ∃ op ∈ d.operands, op.name = name

instance (d : Definition) (bindings : Bindings) : Decidable (d.BoundBy bindings) :=
  decidable_of_iff ((∀ op ∈ d.operands, ∃ v ∈ bindings.get? op.name, op.Writable v) ∧
      ∀ name ∈ bindings.names, ∃ op ∈ d.operands, op.name = name)
    ⟨fun h => ⟨h.1, h.2⟩, fun h => ⟨h.bound, h.named⟩⟩

theorem Definition.boundBy_of_encode {d : Definition} {bindings : Bindings} {w : Word}
    (h : Codec.encode d bindings = .ok w) : d.BoundBy bindings := by
  refine ⟨fun op hop => ?_, (Codec.encode_eq_ok h).1⟩
  obtain ⟨v, pattern, hpacks⟩ := Codec.packs_of_encode h hop
  exact ⟨v, hpacks.bound, Operand.writable_of_pattern hpacks.stands⟩

namespace Registry
open Assembly

/-- **A listed instruction is read as that instruction**, if its name can stand in a line and its
operands have values that can be written. -/
theorem parseLine_of_boundBy {r : Registry} {e : Entry} {bindings : Bindings}
    (hname : LineName e.name) (hfind : r.find? e.name = some e)
    (hb : e.definition.BoundBy bindings) (settings : ListingSettings) :
    r.parseLine (render settings e bindings) = .ok (e, bindings) := by
  have hops : ∀ op ∈ e.definition.operands, ∃ v, bindings.get? op.name = some v ∧
      operandValue op (operandText settings bindings op) = .ok v ∧
      Piece (operandText settings bindings op).toList := fun op hop => by
    obtain ⟨v, hv, hwritable⟩ := hb.bound op hop
    exact ⟨v, hv, operandValue_operandText settings hv hwritable⟩
  have hsplit : ∃ rest, splitLine (render settings e bindings) = (e.name, rest) ∧
      splitOperands rest = e.definition.operands.map (operandText settings bindings) := by
    rw [render]
    split
    · rename_i hnil
      exact ⟨[], splitLine_name hname, hnil.symm⟩
    · rename_i hcons
      have hpieces : ∀ cs ∈ (e.definition.operands.map (operandText settings bindings)).map
          String.toList, Piece cs := by
        intro cs hcs
        rw [List.map_map] at hcs
        obtain ⟨op, hop, rfl⟩ := List.mem_map.mp hcs
        obtain ⟨v, -, -, hpiece⟩ := hops op hop
        exact hpiece
      have hne : (e.definition.operands.map (operandText settings bindings)).map String.toList ≠
          [] := fun hnil => hcons (List.map_eq_nil_iff.mp hnil)
      obtain ⟨hjoined, htight, hmark⟩ := joined_spec hne hpieces
      refine ⟨_, splitLine_operands hname hjoined htight hmark ?_, ?_⟩
      · rw [String.toList_append, String.toList_append, String.toList_intercalate,
          List.append_assoc]
        rfl
      · rw [splitOperands_joined hne hpieces, List.map_map]
        exact (List.map_congr_left fun _ _ => String.ofList_toList).trans (List.map_id _)
  obtain ⟨rest, hline, htexts⟩ := hsplit
  have hbind : bindTexts {} (e.definition.operands.zip
      (e.definition.operands.map (operandText settings bindings))) = .ok bindings := by
    have hvalue : ∀ op ∈ e.definition.operands, operandValue op (operandText settings bindings op) =
        .ok ((bindings.get? op.name).getD 0) := fun op hop => by
      obtain ⟨v, hv, hread, -⟩ := hops op hop
      rw [hread, hv, Option.getD_some]
    rw [bindTexts_zip hvalue]
    refine congrArg Except.ok (NameMap.ofList_eq (fun entry hentry => ?_) fun name hnamed => ?_)
    · obtain ⟨op, hop, rfl⟩ := List.mem_map.mp hentry
      obtain ⟨v, hv, -⟩ := hops op hop
      simp only [hv, Option.getD_some]
    · obtain ⟨op, hop, rfl⟩ := hb.named name hnamed
      rw [List.map_map]
      exact List.mem_map.mpr ⟨op, hop, rfl⟩
  rw [parseLine, hline]
  simp only [hfind, htexts, List.length_map, ne_eq, not_true_eq_false, if_false, hbind]
  rfl

/-- A listed instruction is read as that instruction, if its operands can be encoded. -/
theorem parseLine_render {r : Registry} {e : Entry} {bindings : Bindings} {w : Word}
    (hname : LineName e.name) (hfind : r.find? e.name = some e)
    (hw : Codec.encode e.definition bindings = .ok w) (settings : ListingSettings) :
    r.parseLine (render settings e bindings) = .ok (e, bindings) :=
  parseLine_of_boundBy hname hfind (Definition.boundBy_of_encode hw) settings

/-- A line is read as the definition whose name is cut out of it. -/
theorem find?_of_parseLine {r : Registry} {line : String} {e : Entry} {bindings : Bindings}
    (h : r.parseLine line = .ok (e, bindings)) : r.find? (splitLine line).1 = some e := by
  rw [parseLine] at h
  simp only at h
  split at h
  · cases h
  rename_i e' hfind
  split at h
  · cases h
  obtain ⟨b, -, heq⟩ := map_eq_ok h
  rw [hfind, (Prod.mk.inj heq).1]

/-- An assembled line has the name of a definition in it, with values that are encoded. -/
theorem assemble_eq_ok {r : Registry} {line : String} {w : Word} (h : r.assemble line = .ok w) :
    ∃ e bindings, r.find? (splitLine line).1 = some e ∧ r.encode e bindings = .ok w := by
  rw [assemble] at h
  split at h
  · cases h
  rename_i e bindings hparse
  exact ⟨e, bindings, find?_of_parseLine hparse, h⟩

/-- **Listing a word that came from a line gives a line for the same word**, however registers and
immediates are listed. -/
theorem assemble_listed {settings : RegistrySettings} {extensions : List Extension} {r : Registry}
    (hload : load settings extensions = .ok r) {line : String} {w : Word}
    (h : r.assemble line = .ok w) (listing : ListingSettings) :
    ∃ text, r.disassemble listing w = .ok text ∧ r.assemble text = .ok w := by
  obtain ⟨e, bindings, hfind, hw⟩ := assemble_eq_ok h
  have hr := loaded_of_load hload
  obtain ⟨he, hnamed⟩ := hr.find?_eq_some_iff.mp hfind
  -- the name stood in a line, so it can stand in one
  have hname : LineName e.name := by
    refine ⟨?_, fun c hc => ?_, fun c hc => ?_⟩
    · rw [Entry.name, String.toList_append, String.toList_append]
      simp
    · exact (not_blank_splitLine line c (hnamed ▸ hc)).1
    · exact (not_blank_splitLine line c (hnamed ▸ hc)).2
  refine ⟨render listing e bindings, ?_, ?_⟩
  · rw [disassemble, hr.decode_encoded he hw]
    rfl
  · rw [assemble, parseLine_render hname (hnamed ▸ hfind) (encode_eq_ok hw).1 listing]
    exact hw

/-- A branch backwards, written loosely, is listed with the names of the calling convention and in
hexadecimal. -/
theorem assemble_listed_branch :
    ∃ r w, load {} [branches] = .ok r ∧ r.assemble " x.b -2 ,\tfp # back" = .ok w ∧
      ∃ text, r.disassemble ⟨true, true⟩ w = .ok text ∧ r.assemble text = .ok w := by
  have hrun : (load {} [branches]).toOption.any (fun r =>
      (r.assemble " x.b -2 ,\tfp # back").toOption.isSome) = true := by
    decide +kernel
  obtain ⟨r, hload, hsome⟩ := Option.any_eq_true _ _ |>.mp hrun
  obtain ⟨w, hw⟩ := Option.isSome_iff_exists.mp hsome
  have hload := eq_ok_of_toOption hload
  have hw := eq_ok_of_toOption hw
  exact ⟨r, w, hload, hw, assemble_listed hload hw ⟨true, true⟩⟩

end Registry
end CustomIsa
