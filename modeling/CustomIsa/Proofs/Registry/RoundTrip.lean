import CustomIsa.Proofs.Registry.Lookup
/-! # Decoding undoes encoding

A word that a loaded registry encodes is decoded as the definition and the operand values it was
made of, also from a byte stream in which other bytes follow it. The codec gives the operand values
back (`Codec.extract_of_encode`), the search in decode order the definition, and the fixed low bits
of every checked layout the size of the word (`Definition.Valid.announced_of_matches`). -/
namespace CustomIsa

/-- A word that matches a checked definition announces its own size. -/
theorem Definition.Valid.announced_of_matches {d : Definition} {w : Word} (hd : d.Valid)
    (h : d.matchesWord w = true) : w.Announced := by
  obtain ⟨hsize, hbits⟩ := Definition.matchesWord_iff.mp h
  have hann := hd.layout.announced
  rw [Layout.announces, Bool.and_eq_true, decide_eq_true_iff] at hann
  obtain ⟨hmask, hmatch⟩ := hann
  -- both low bits are fixed, so the word has them from the match value
  have hlow : w.bits % 4 = d.layout.matchBits % 4 := by
    rw [← hbits]
    rw [Bits.mod_four_eq] at hmask ⊢
    rw [Bits.mod_four_eq (w.bits &&& d.layout.mask), Nat.testBit_and, Nat.testBit_and]
    cases h0 : d.layout.mask.testBit 0 <;> cases h1 : d.layout.mask.testBit 1 <;>
      simp [h0, h1] at hmask ⊢
  rw [Word.Announced, WordSize.announcedBy, hlow, ← hsize]
  cases hw : d.wordSize with
  | half =>
    rw [hw] at hmatch
    exact if_neg (by simpa [WordSize.bits] using hmatch)
  | full =>
    rw [hw] at hmatch
    exact if_pos (by simpa [WordSize.bits] using hmatch)

namespace Registry

/-- What the registry encodes is what the codec encodes, unless another definition captures it. -/
theorem encode_eq_ok {r : Registry} {e : Entry} {b : Bindings} {w : Word}
    (h : r.encode e b = .ok w) :
    Codec.encode e.definition b = .ok w ∧ ∀ winner, r.lookup? w = some winner →
      winner.index = e.index := by
  rw [encode] at h
  split at h
  · cases h
  rename_i word hword
  split at h
  · rename_i winner hlookup
    split at h
    · rename_i hindex
      obtain rfl := Except.ok.inj h
      refine ⟨hword, fun other hother => ?_⟩
      rw [hlookup] at hother
      rwa [← Option.some.inj hother]
    · cases h
  · rename_i hlookup
    obtain rfl := Except.ok.inj h
    refine ⟨hword, fun other hother => ?_⟩
    rw [hlookup] at hother
    cases hother

/-- The registry finds the definition that it encoded a word with. -/
theorem Loaded.lookup?_of_encode {r : Registry} (hr : r.Loaded) {e : Entry} {b : Bindings}
    {w : Word} (he : e ∈ r.entries) (h : r.encode e b = .ok w) : r.lookup? w = some e := by
  obtain ⟨hword, hwinner⟩ := encode_eq_ok h
  have hfits := Codec.matchesWord_of_encode (hr.valid he) hword
  cases hlookup : r.lookup? w with
  | none =>
    rw [hr.lookup?_eq_none_iff.mp hlookup e he] at hfits
    cases hfits
  | some winner =>
    have hmem := (hr.lookup?_eq_some_iff.mp hlookup).mem
    rw [hr.eq_of_index hmem he (hwinner winner hlookup)]

/-- The word decodes as the definition and the operand values it was made of. -/
theorem Loaded.decode_encoded {r : Registry} (hr : r.Loaded) {e : Entry} {b : Bindings}
    {w : Word} (he : e ∈ r.entries) (h : r.encode e b = .ok w) : r.decode w = .ok ⟨e, b⟩ := by
  rw [decode, hr.lookup?_of_encode he h]
  simp only [Codec.extract_of_encode (hr.valid he) (encode_eq_ok h).1]

/-- An encoded word announces its own size. -/
theorem Loaded.announced_of_encode {r : Registry} (hr : r.Loaded) {e : Entry} {b : Bindings}
    {w : Word} (he : e ∈ r.entries) (h : r.encode e b = .ok w) : w.Announced :=
  (hr.valid he).announced_of_matches
    (Codec.matchesWord_of_encode (hr.valid he) (encode_eq_ok h).1)

/-- **Decoding undoes encoding.** The word and its bytes decode as the same definition with the same
operand values, none lost and none added. -/
theorem decode_of_encode {settings : RegistrySettings} {extensions : List Extension}
    {r : Registry} (hload : load settings extensions = .ok r) {e : Entry} (he : e ∈ r.entries)
    {b : Bindings} {w : Word} (hw : r.encode e b = .ok w) :
    r.decode w = .ok ⟨e, b⟩ ∧
      ∀ t : List UInt8, r.decodeBytes (w.toBytes ++ t) = .ok (⟨e, b⟩, w.toBytes.length) := by
  have hr := loaded_of_load hload
  have hdecode := hr.decode_encoded he hw
  refine ⟨hdecode, fun t => ?_⟩
  rw [decodeBytes, Word.read_toBytes_append (hr.announced_of_encode he hw), Word.length_toBytes]
  simp only [hdecode]
  rfl

/-- Two definitions of which the second is a case of the first: a branch with a split signed offset
and a biased register, and one with a fixed offset field. -/
def branches : Extension where
  label := "x"
  instructions := [
    { mnemonic := "b"
      operands :=
        [⟨"off", .immediate, 13, true, .input, 0⟩, ⟨"rs", .register, 32, false, .input, 8⟩]
      layout := ⟨[⟨6, 0, 0x2b⟩, ⟨31, 23, 5⟩],
        [⟨"off", 11, 7, 8⟩, ⟨"off", 19, 12, 0⟩, ⟨"rs", 22, 20, 0⟩]⟩ },
    { mnemonic := "bz"
      operands := [⟨"rs", .register, 32, false, .input, 8⟩]
      layout := ⟨[⟨6, 0, 0x2b⟩, ⟨31, 23, 5⟩, ⟨19, 7, 0⟩], [⟨"rs", 22, 20, 0⟩]⟩ }]

/-- A branch backwards is encoded, and its bytes decode again. -/
theorem decode_of_encode_branch :
    ∃ r e w, load {} [branches] = .ok r ∧ e ∈ r.entries ∧ e.name = "x.b" ∧
      r.encode e (.ofList [("off", -2), ("rs", 9)]) = .ok w ∧
      r.decode w = .ok ⟨e, .ofList [("off", -2), ("rs", 9)]⟩ ∧
      ∀ t, r.decodeBytes (w.toBytes ++ t) =
        .ok (⟨e, .ofList [("off", -2), ("rs", 9)]⟩, w.toBytes.length) := by
  have hrun : (load {} [branches]).toOption.any (fun r => r.entries.any fun e => e.name = "x.b" &&
      (r.encode e (.ofList [("off", -2), ("rs", 9)])).toOption.isSome) = true := by
    decide +kernel
  obtain ⟨r, hload, hany⟩ := Option.any_eq_true _ _ |>.mp hrun
  obtain ⟨e, he, hcase⟩ := List.any_eq_true.mp hany
  rw [Bool.and_eq_true, decide_eq_true_iff] at hcase
  obtain ⟨w, hw⟩ := Option.isSome_iff_exists.mp hcase.2
  have hload := eq_ok_of_toOption hload
  have hw := eq_ok_of_toOption hw
  obtain ⟨hdecode, hbytes⟩ := decode_of_encode hload he hw
  exact ⟨r, e, w, hload, he, hcase.1, hw, hdecode, hbytes⟩

end Registry
end CustomIsa
