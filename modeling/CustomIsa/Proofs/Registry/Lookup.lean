import CustomIsa.Proofs.Codec
import CustomIsa.Proofs.Foundations
import CustomIsa.Proofs.Registry.Load
import CustomIsa.Proofs.Word
/-! # What is looked up in a registry

What the indexes of a loaded registry find is told by the entries alone: the one of a name or an
alias, the rounding form of a definition, the definitions of a shape, the definition of a word.

Two definitions of the same size and with equally many free bits clash exactly when some word
matches both (`Registry.clash_eq_true_iff`). In a loaded registry no two definitions clash, so among
the definitions that match a word one has fewer free bits than all others, and the search in decode
order finds that one (`Registry.Loaded.lookup?_eq_some_iff`). -/
namespace CustomIsa

theorem Definition.matchesWord_iff {d : Definition} {w : Word} :
    d.matchesWord w = true ↔
      d.wordSize = w.size ∧ w.bits &&& d.layout.mask = d.layout.matchBits := by
  rw [matchesWord, Bool.and_eq_true, decide_eq_true_iff, decide_eq_true_iff]

namespace Layout.Valid
variable {l : Layout} {wordBits : Nat}

/-- The match value has fixed bits only. -/
theorem mask_of_matchBits (h : l.Valid wordBits) (hword : wordBits ≤ 32) {i : Nat}
    (hi : l.matchBits.testBit i = true) : l.mask.testBit i = true := by
  obtain ⟨f, hf, hfi, -⟩ := (h.testBit_matchBits hword i).mp hi
  exact (h.testBit_mask hword i).mpr ⟨f, hf, hfi⟩

theorem matchBits_lt (h : l.Valid wordBits) (hword : wordBits ≤ 32) :
    l.matchBits < 2 ^ wordBits := by
  apply Nat.lt_pow_two_of_testBit
  intro i hi
  rw [Bool.eq_false_iff]
  intro hbit
  obtain ⟨f, hf, hfi, -⟩ := (h.testBit_matchBits hword i).mp hbit
  have hwithin := (h.fixed_within hf).2
  exact absurd hfi.2 (by omega)

end Layout.Valid

namespace Registry

/-- Some word matches both definitions, which have the same size and equally many free bits. -/
def Ambiguous (a b : Definition) : Prop :=
  a.wordSize = b.wordSize ∧ a.freeBits = b.freeBits ∧
    ∃ w, a.matchesWord w = true ∧ b.matchesWord w = true

theorem clash_eq_true_iff {a b : Definition} (ha : a.Valid) (hb : b.Valid) :
    clash a b = true ↔ Ambiguous a b := by
  rw [clash, Bool.and_eq_true, Bool.and_eq_true, decide_eq_true_iff, decide_eq_true_iff,
    decide_eq_true_iff, and_assoc, Ambiguous]
  refine and_congr_right fun hsize => and_congr_right fun _ => ?_
  have hla := a.wordSize.bits_le
  have hlb := b.wordSize.bits_le
  constructor
  · intro hzero
    -- the match values agree on the shared fixed bits, so their union matches both
    have hagree : ∀ i, a.layout.mask.testBit i = true → b.layout.mask.testBit i = true →
        a.layout.matchBits.testBit i = b.layout.matchBits.testBit i := by
      intro i hai hbi
      have hbit := congrArg (Nat.testBit · i) hzero
      simpa [hai, hbi] using hbit
    have hina := fun i => ha.layout.mask_of_matchBits hla (i := i)
    have hinb := fun i => hb.layout.mask_of_matchBits hlb (i := i)
    have hfits : a.layout.matchBits ||| b.layout.matchBits < 2 ^ a.wordSize.bits :=
      Nat.or_lt_two_pow (ha.layout.matchBits_lt hla) (hsize ▸ hb.layout.matchBits_lt hlb)
    refine ⟨⟨a.wordSize, _, hfits⟩, Definition.matchesWord_iff.mpr ⟨rfl, ?_⟩,
      Definition.matchesWord_iff.mpr ⟨hsize.symm, ?_⟩⟩
    · exact Bits.or_and_mask_eq hina hinb hagree
    · show (a.layout.matchBits ||| b.layout.matchBits) &&& b.layout.mask = b.layout.matchBits
      rw [Nat.or_comm]
      exact Bits.or_and_mask_eq hinb hina fun i hbi hai => (hagree i hai hbi).symm
  · rintro ⟨w, hwa, hwb⟩
    rw [← (Definition.matchesWord_iff.mp hwa).2, ← (Definition.matchesWord_iff.mp hwb).2]
    apply Nat.eq_of_testBit_eq
    intro i
    simp only [Nat.testBit_and, Nat.testBit_xor, Nat.zero_testBit]
    cases a.layout.mask.testBit i <;> cases b.layout.mask.testBit i <;> simp

theorem Ambiguous.symm {a b : Definition} (h : Ambiguous a b) : Ambiguous b a := by
  obtain ⟨hsize, hfree, w, ha, hb⟩ := h
  exact ⟨hsize.symm, hfree.symm, w, hb, ha⟩

/-! ## Decode order -/

theorem decodesBefore_total (a b : Entry) :
    a.decodesBefore b = true ∨ b.decodesBefore a = true := by
  simp only [Entry.decodesBefore, Bool.or_eq_true, Bool.and_eq_true, decide_eq_true_iff]
  omega

theorem decodesBefore_trans (a b c : Entry) (hab : a.decodesBefore b = true)
    (hbc : b.decodesBefore c = true) : a.decodesBefore c = true := by
  simp only [Entry.decodesBefore, Bool.or_eq_true, Bool.and_eq_true, decide_eq_true_iff] at *
  omega

theorem freeBits_le_of_decodesBefore {a b : Entry} (h : a.decodesBefore b = true) :
    a.definition.freeBits ≤ b.definition.freeBits := by
  simp only [Entry.decodesBefore, Bool.or_eq_true, Bool.and_eq_true, decide_eq_true_iff] at h
  omega

/-! ## Indexes -/

theorem mem_of_entryAt? {r : Registry} {i : Nat} {e : Entry} (h : r.entryAt? i = some e) :
    e ∈ r.entries :=
  List.mem_of_getElem? h

theorem mem_of_mem_shaped {r : Registry} {key : ShapeKey} {e : Entry} (h : e ∈ r.shaped key) :
    e ∈ r.entries := by
  obtain ⟨i, -, hi⟩ := List.mem_filterMap.mp h
  exact mem_of_entryAt? hi

theorem mem_of_mem_roundingPairs {r : Registry} {base variant : Entry}
    (h : (base, variant) ∈ r.roundingPairs) : base ∈ r.entries ∧ variant ∈ r.entries := by
  obtain ⟨⟨i, j⟩, -, h⟩ := List.mem_filterMap.mp h
  obtain ⟨b, hb, h⟩ := Option.bind_eq_some_iff.mp h
  obtain ⟨v, hv, heq⟩ := Option.map_eq_some_iff.mp h
  cases heq
  exact ⟨mem_of_entryAt? hb, mem_of_entryAt? hv⟩

namespace Loaded
variable {r : Registry} (h : r.Loaded) {base variant e : Entry} {name : String}
include h

theorem entryAt?_eq_some_iff {i : Nat} : r.entryAt? i = some e ↔ e ∈ r.entries ∧ e.index = i :=
  getElem?_iff_index h.wellFormed.indexed

theorem entryAt?_index (he : e ∈ r.entries) : r.entryAt? e.index = some e :=
  h.entryAt?_eq_some_iff.mpr ⟨he, rfl⟩

theorem find?_eq_some_iff : r.find? name = some e ↔ e ∈ r.entries ∧ e.name = name := by
  rw [← Option.some.injEq e.name]
  exact h.names.lookup_eq_some_iff h.wellFormed.indexed

theorem byAlias?_eq_some_iff : r.byAlias? name = some e ↔ e ∈ r.entries ∧ e.alias = some name :=
  h.aliases.lookup_eq_some_iff h.wellFormed.indexed

/-- The links are looked up by the position that the name has. -/
theorem roundingVariant?_eq_some_iff :
    r.roundingVariant? base = some variant ↔
      variant ∈ r.entries ∧ variant.roundingBase? = some base.name := by
  simp only [roundingVariant?, Option.bind_eq_some_iff, h.links.lookup_eq_some_iff,
    h.links.mem_iff, h.entryAt?_eq_some_iff, h.names base.name, Option.some.injEq]
  constructor
  · rintro ⟨i, ⟨b, hb, hname, hindex⟩, j, ⟨b', hb', v, hv, hrounds, hindex', rfl⟩, hmem, hv'⟩
    rw [h.eq_of_index hb' hb (hindex'.trans hindex.symm), hname, h.eq_of_index hv hmem hv'.symm]
      at hrounds
    exact ⟨hmem, hrounds⟩
  · rintro ⟨hmem, hrounds⟩
    -- the definition that the form names is there, since loading asks for it
    obtain ⟨-, b, hb, hname, -⟩ := h.rounds variant hmem _ hrounds
    exact ⟨b.index, ⟨b, hb, hname, rfl⟩, variant.index,
      ⟨b, hb, variant, hmem, hname ▸ hrounds, rfl, rfl⟩, hmem, rfl⟩

theorem mem_roundingPairs_iff :
    (base, variant) ∈ r.roundingPairs ↔ base ∈ r.entries ∧ variant ∈ r.entries ∧
      variant.roundingBase? = some base.name := by
  simp only [roundingPairs, List.mem_filterMap, Prod.exists, Option.bind_eq_some_iff,
    Option.map_eq_some_iff, Prod.mk.injEq, h.links.mem_iff, h.entryAt?_eq_some_iff]
  constructor
  · rintro
      ⟨i, j, ⟨b, hb, v, hv, hrounds, rfl, rfl⟩, b', ⟨hb', hindex⟩, v', ⟨hv', hindex'⟩, rfl, rfl⟩
    rw [h.eq_of_index hb hb' hindex.symm, h.eq_of_index hv hv' hindex'.symm] at hrounds
    exact ⟨hb', hv', hrounds⟩
  · rintro ⟨hb, hv, hrounds⟩
    exact ⟨base.index, variant.index, ⟨base, hb, variant, hv, hrounds, rfl, rfl⟩, base, ⟨hb, rfl⟩,
      variant, ⟨hv, rfl⟩, rfl, rfl⟩

theorem mem_roundingPairs :
    (base, variant) ∈ r.roundingPairs ↔
      base ∈ r.entries ∧ r.roundingVariant? base = some variant := by
  rw [h.mem_roundingPairs_iff, h.roundingVariant?_eq_some_iff]

/-- A rounding form belongs to one definition only. -/
theorem base_eq {base' : Entry} (hpair : (base, variant) ∈ r.roundingPairs)
    (hpair' : (base', variant) ∈ r.roundingPairs) : base = base' := by
  obtain ⟨hbase, -, hname⟩ := h.mem_roundingPairs_iff.mp hpair
  obtain ⟨hbase', -, hname'⟩ := h.mem_roundingPairs_iff.mp hpair'
  exact List.inj_on_of_nodup_map h.wellFormed.named hbase hbase'
    (Option.some.inj (hname.symm.trans hname'))

/-- No two definitions share a rounding form. -/
theorem pairwise_roundingPairs : r.roundingPairs.Pairwise fun p q => p.2.name ≠ q.2.name := by
  refine List.pairwise_filterMap.mpr (h.links.sorted.imp_of_mem ?_)
  rintro ⟨i, j⟩ ⟨i', j'⟩ hlink hlink' hlt ⟨base, variant⟩ hpair ⟨base', variant'⟩ hpair' hname
  have hmem : (base, variant) ∈ r.roundingPairs := List.mem_filterMap.mpr ⟨_, hlink, hpair⟩
  have hmem' : (base', variant') ∈ r.roundingPairs := List.mem_filterMap.mpr ⟨_, hlink', hpair'⟩
  obtain rfl : variant = variant' := List.inj_on_of_nodup_map h.wellFormed.named
    (mem_of_mem_roundingPairs hmem).2 (mem_of_mem_roundingPairs hmem').2 hname
  obtain rfl := h.base_eq hmem hmem'
  -- the links are sorted by the positions of the definitions, so these differ
  have hindex : ∀ {k l}, ((r.entryAt? k).bind fun b => (r.entryAt? l).map (b, ·)) =
      some (base, variant) → base.index = k := by
    intro k l hlinked
    obtain ⟨b, hb, hlinked⟩ := Option.bind_eq_some_iff.mp hlinked
    obtain ⟨v, -, heq⟩ := Option.map_eq_some_iff.mp hlinked
    cases heq
    exact (h.entryAt?_eq_some_iff.mp hb).2
  exact Nat.ne_of_lt hlt ((hindex hpair).symm.trans (hindex hpair'))

theorem filterMap_entryAt? {es : List Entry} (hsub : es ⊆ r.entries) :
    es.filterMap (fun e => r.entryAt? e.index) = es :=
  (List.filterMap_congr fun _ he => h.entryAt?_index (hsub he)).trans List.filterMap_some

/-- **The table misses no definition of a shape.** -/
theorem shaped_eq (key : ShapeKey) : r.shaped key = r.entries.filter (·.shape? = some key) := by
  rw [shaped, h.shapes, List.filterMap_map]
  exact h.filterMap_entryAt? List.filter_sublist.subset

theorem decodeRows_eq :
    r.decodeRows = (Sorting.sort Entry.decodesBefore r.entries).map Entry.decodeRow :=
  h.rows.trans (decodeRowsOf_eq h.wellFormed.indexed)

theorem decodeOrder_eq : r.decodeOrder = Sorting.sort Entry.decodesBefore r.entries := by
  rw [decodeOrder, h.decodeRows_eq, List.filterMap_map]
  exact h.filterMap_entryAt? (Sorting.sort_perm _ _).subset

theorem mem_decodeOrder : e ∈ r.decodeOrder ↔ e ∈ r.entries := by
  rw [h.decodeOrder_eq]
  exact (Sorting.sort_perm _ _).mem_iff

/-- A word is looked up by the rows, which tell of a definition whether it matches. -/
theorem lookup?_eq (w : Word) :
    r.lookup? w = r.decodeOrder.find? (·.definition.matchesWord w) := by
  rw [lookup?, h.decodeRows_eq, h.decodeOrder_eq, List.find?_map]
  have hmatches : (fun row : DecodeRow => row.matchesWord w) ∘ Entry.decodeRow =
      fun e => e.definition.matchesWord w := rfl
  rw [hmatches]
  cases hfind : (Sorting.sort Entry.decodesBefore r.entries).find?
      (·.definition.matchesWord w) with
  | none => rfl
  | some e =>
    exact h.entryAt?_index ((Sorting.sort_perm _ _).subset (List.mem_of_find?_eq_some hfind))

end Loaded

/-! ## Words -/

/-- The entry matches the word and every other one that does has more free bits. -/
structure MostSpecific (r : Registry) (w : Word) (e : Entry) : Prop where
  mem : e ∈ r.entries
  fits : e.definition.matchesWord w = true
  fewest : ∀ e' ∈ r.entries, e' ≠ e → e'.definition.matchesWord w = true →
    e.definition.freeBits < e'.definition.freeBits

theorem MostSpecific.unique {r : Registry} {w : Word} {e e' : Entry} (h : r.MostSpecific w e)
    (h' : r.MostSpecific w e') : e = e' := by
  apply Classical.byContradiction
  intro hne
  have hlt := h.fewest e' h'.mem (Ne.symm hne) h'.fits
  have hgt := h'.fewest e h.mem hne h.fits
  omega

namespace Loaded
variable {r : Registry} (h : r.Loaded)
include h

/-- Different entries that match a word have different numbers of free bits. -/
theorem eq_of_matches {e e' : Entry} {w : Word} (he : e ∈ r.entries) (he' : e' ∈ r.entries)
    (hw : e.definition.matchesWord w = true) (hw' : e'.definition.matchesWord w = true)
    (hfree : e.definition.freeBits = e'.definition.freeBits) : e = e' := by
  have hclear : r.entries.Pairwise fun a b => ¬Ambiguous a.definition b.definition := by
    refine h.apart.imp_of_mem fun {a b} ha hb hab hamb => ?_
    rw [(clash_eq_true_iff (h.valid ha) (h.valid hb)).mpr hamb] at hab
    cases hab
  have hsymm : Std.Symm fun a b : Entry => ¬Ambiguous a.definition b.definition :=
    ⟨fun _ _ hab hba => hab hba.symm⟩
  apply Classical.byContradiction
  intro hne
  have hsize : e.definition.wordSize = e'.definition.wordSize :=
    (Definition.matchesWord_iff.mp hw).1.trans (Definition.matchesWord_iff.mp hw').1.symm
  exact hclear.forall he he' hne ⟨hsize, hfree, w, hw, hw'⟩

theorem lookup?_eq_none_iff {w : Word} :
    r.lookup? w = none ↔ ∀ e ∈ r.entries, e.definition.matchesWord w = false := by
  rw [h.lookup?_eq, List.find?_eq_none]
  simp only [h.mem_decodeOrder, Bool.not_eq_true]

/-- **The search in decode order finds the most specific entry.** -/
theorem lookup?_eq_some_iff {w : Word} {e : Entry} :
    r.lookup? w = some e ↔ r.MostSpecific w e := by
  have sound : ∀ {e}, r.lookup? w = some e → r.MostSpecific w e := by
    intro e hfind
    rw [h.lookup?_eq] at hfind
    have hmem := h.mem_decodeOrder.mp (List.mem_of_find?_eq_some hfind)
    have hfits : e.definition.matchesWord w = true := by simpa using List.find?_some hfind
    refine ⟨hmem, hfits, fun e' he' hne hfits' => ?_⟩
    have hsorted := Sorting.pairwise_sort decodesBefore_total decodesBefore_trans r.entries
    rw [← h.decodeOrder_eq] at hsorted
    rcases Sorting.le_of_find?_eq_some hsorted hfind (h.mem_decodeOrder.mpr he') hfits' with
      rfl | hle
    · exact absurd rfl hne
    · refine Nat.lt_of_le_of_ne (freeBits_le_of_decodesBefore hle) fun hfree => hne ?_
      exact h.eq_of_matches he' hmem hfits' hfits hfree.symm
  refine ⟨sound, fun hspec => ?_⟩
  cases hfind : r.lookup? w with
  | none =>
    have hmiss := h.lookup?_eq_none_iff.mp hfind e hspec.mem
    rw [hspec.fits] at hmiss
    cases hmiss
  | some e' => rw [(sound hfind).unique hspec]

end Loaded
end Registry
end CustomIsa
