import CustomIsa.Proofs.Assembly.Listing
/-! # Listings of any bytes

Bytes are listed word by word whether or not the words can be decoded (`Registry.Walks`): at each
place the first byte announces how many bytes belong to the word there, and where fewer are left the
listing ends with a line that says so. A listing that starts anywhere in another one is the listing
of the bytes from there on (`Registry.Walks.split`), so what holds of a first line holds of every
line, and no byte is lost, moved or listed twice (`Registry.list_loses_nothing`). -/
namespace CustomIsa

namespace Assembly

/-- How many bytes the word has that starts with a byte: four if the two low bits are set, else
two. -/
def announcedLength (first : UInt8) : Nat := if first.toNat % 4 = 3 then 4 else 2

theorem bytes_announcedBy (first : UInt8) :
    (WordSize.announcedBy first.toNat).bytes = announcedLength first := by
  rw [WordSize.announcedBy, announcedLength]
  split <;> rfl

/-- The bytes of a word have the number that the first of them announces. -/
theorem head_toBytes_of_announced {w : Word} (h : w.Announced) :
    ∃ first rest, w.toBytes = first :: rest ∧ w.toBytes.length = announcedLength first := by
  obtain ⟨first, rest, hbytes, hfirst⟩ := w.head_toBytes
  refine ⟨first, rest, hbytes, ?_⟩
  rw [w.length_toBytes, ← bytes_announcedBy, hfirst, show WordSize.announcedBy w.bits = _ from h]

end Assembly

namespace Registry
open Assembly

/-- The lines list the bytes, which lie at the offset. -/
inductive Walks (r : Registry) (listing : ListingSettings) :
    Nat → List UInt8 → List Line → Prop
  | done (offset : Nat) : Walks r listing offset [] []
  | cut {offset : Nat} {first : UInt8} {rest : List UInt8}
    (hshort : (first :: rest).length < announcedLength first) :
    Walks r listing offset (first :: rest)
      [⟨offset, first :: rest,
        .error (.truncated ⟨offset, announcedLength first, (first :: rest).length⟩)⟩]
  | word {offset : Nat} {w : Word} {rest : List UInt8} {lines : List Line} (hw : w.Announced)
    (hrest : Walks r listing (offset + w.toBytes.length) rest lines) :
    Walks r listing offset (w.toBytes ++ rest)
      (⟨offset, w.toBytes, r.disassemble listing w⟩ :: lines)

variable {r : Registry} {listing : ListingSettings} {offset : Nat} {bytes : List UInt8}
  {lines : List Line}

theorem listFrom_cut {first : UInt8} {rest : List UInt8}
    (hshort : (first :: rest).length < announcedLength first) :
    r.listFrom listing offset (first :: rest) =
      [⟨offset, first :: rest,
        .error (.truncated ⟨offset, announcedLength first, (first :: rest).length⟩)⟩] := by
  have hread : Word.read offset (first :: rest) =
      .error ⟨offset, announcedLength first, (first :: rest).length⟩ := by
    rw [Word.read]
    simp only [bytes_announcedBy, if_pos hshort]
  rw [listFrom, hread]

/-- Bytes are listed as said. The induction is on their number: a word takes at least two. -/
theorem walks_listFrom (r : Registry) (listing : ListingSettings) (offset : Nat)
    (bytes : List UInt8) : Walks r listing offset bytes (r.listFrom listing offset bytes) := by
  induction hlength : bytes.length using Nat.strongRecOn generalizing offset bytes with
  | ind _ ih =>
    subst hlength
    cases bytes with
    | nil =>
      rw [listFrom]
      exact .done offset
    | cons first rest =>
      by_cases hshort : (first :: rest).length < announcedLength first
      · rw [listFrom_cut hshort]
        exact .cut hshort
      · have henough : (WordSize.announcedBy first.toNat).bytes ≤ (first :: rest).length := by
          rw [bytes_announcedBy]
          exact Nat.not_lt.mp hshort
        obtain ⟨w, t, hw, hbytes⟩ := Word.exists_toBytes_append henough
        obtain ⟨_, _, hhead, -⟩ := w.head_toBytes
        have hless : t.length < (first :: rest).length := by
          rw [hbytes, hhead, List.length_append, List.length_cons]
          omega
        rw [hbytes, listFrom_toBytes_append r listing hw]
        exact .word hw (ih _ hless _ _ rfl)

namespace Walks

theorem flatMap_bytes (h : Walks r listing offset bytes lines) :
    lines.flatMap Line.bytes = bytes := by
  induction h with
  | done => rfl
  | cut => exact List.append_nil _
  | word _ _ ih => rw [List.flatMap_cons, ih]

/-- **From any line on, the lines list the bytes from its offset on.** -/
theorem split {before after : List Line} (h : Walks r listing offset bytes (before ++ after)) :
    Walks r listing (offset + (before.flatMap Line.bytes).length)
      (bytes.drop (before.flatMap Line.bytes).length) after := by
  induction before generalizing offset bytes with
  | nil => exact h
  | cons l before ih =>
    rw [List.cons_append] at h
    generalize hlines : before ++ after = lines at h
    cases h with
    | cut =>
      -- nothing is listed after bytes that end inside a word
      obtain ⟨rfl, rfl⟩ := List.append_eq_nil_iff.mp hlines
      rw [List.flatMap_singleton, List.drop_length]
      exact .done _
    | word _ hrest =>
      subst hlines
      rw [List.flatMap_cons, List.length_append, ← Nat.add_assoc, List.drop_append,
        List.drop_of_length_le (Nat.le_add_right _ _), List.nil_append, Nat.add_sub_cancel_left]
      exact ih hrest

end Walks

theorem disassemble_ne_truncated (w : Word) (t : Truncation) :
    r.disassemble listing w ≠ .error (.truncated t) := by
  rw [disassemble, decode]
  split
  · rintro ⟨⟩
  · rintro ⟨⟩

/-- The first line holds a whole word or, if fewer bytes are left than its first byte announces, all
of them. -/
theorem Walks.first_line {l : Line} {after : List Line}
    (h : Walks r listing offset bytes (l :: after)) :
    l.offset = offset ∧ ∃ first, l.bytes.head? = some first ∧
      (after ≠ [] ∨ announcedLength first ≤ bytes.length →
        l.bytes.length = announcedLength first ∧
          ∃ w : Word, w.toBytes = l.bytes ∧ l.result = r.disassemble listing w) ∧
      ∀ t, l.result = .error (.truncated t) ↔
        bytes.length < announcedLength first ∧ after = [] ∧ l.bytes = bytes ∧
          t = ⟨offset, announcedLength first, bytes.length⟩ := by
  cases h with
  | @cut _ first rest hshort =>
    refine ⟨rfl, first, rfl, ?_, fun t => ?_⟩
    · rintro (hmore | henough)
      · exact absurd rfl hmore
      · exact absurd hshort (Nat.not_lt.mpr henough)
    · refine ⟨fun ht => ⟨hshort, rfl, rfl, ?_⟩, fun ht => by rw [ht.2.2.2]⟩
      exact (Failure.truncated.inj (Except.error.inj ht)).symm
  | @word _ w rest _ hw =>
    obtain ⟨first, tail, hbytes, hlength⟩ := head_toBytes_of_announced hw
    refine ⟨rfl, first, by rw [hbytes]; rfl, fun _ => ⟨hlength, w, rfl, rfl⟩, fun t => ?_⟩
    refine ⟨fun ht => absurd ht (disassemble_ne_truncated w t), fun ht => ?_⟩
    -- the bytes of the word are among those left
    have hshort := ht.1
    rw [List.length_append, hlength] at hshort
    exact absurd hshort (Nat.not_lt.mpr (Nat.le_add_right _ _))

/-- **A listing loses nothing.** Whatever the bytes are, those of the lines put together are the
bytes that were listed, and a line has the offset at which the bytes of the lines before it end. A
line holds a whole word unless it is the last one and too few bytes are left: it has as many bytes
as the first of them announces, with the result for the word that has these bytes. A line reports a
truncation if and only if fewer bytes are left at its offset than its first byte announces; it is
then the last line, holds these bytes, and reports its offset, the number of bytes announced and the
number left. -/
theorem list_loses_nothing (r : Registry) (listing : ListingSettings) (bytes : List UInt8) :
    (r.list listing bytes).flatMap Line.bytes = bytes ∧
      ∀ before l after, r.list listing bytes = before ++ l :: after →
        l.offset = (before.flatMap Line.bytes).length ∧
        ∃ first, l.bytes.head? = some first ∧
          (after ≠ [] ∨ announcedLength first ≤ (bytes.drop l.offset).length →
            l.bytes.length = announcedLength first ∧
              ∃ w : Word, w.toBytes = l.bytes ∧ l.result = r.disassemble listing w) ∧
          ∀ t, l.result = .error (.truncated t) ↔
            (bytes.drop l.offset).length < announcedLength first ∧ after = [] ∧
              l.bytes = bytes.drop l.offset ∧
              t = ⟨l.offset, announcedLength first, (bytes.drop l.offset).length⟩ := by
  have hwalks : Walks r listing 0 bytes (r.list listing bytes) := walks_listFrom r listing 0 bytes
  refine ⟨hwalks.flatMap_bytes, fun before l after hlines => ?_⟩
  rw [hlines] at hwalks
  obtain ⟨hoffset, hline⟩ := hwalks.split.first_line
  rw [Nat.zero_add] at hoffset hline
  rw [← hoffset] at hline
  exact ⟨hoffset, hline⟩

end Registry
end CustomIsa
