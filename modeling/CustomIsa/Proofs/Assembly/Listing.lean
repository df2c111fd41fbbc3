import CustomIsa.Command.Run
import CustomIsa.Proofs.Assembly.Line
/-! # Listings of programs

The bytes of encoded words, one after another, are listed word by word. Where a word ends is told by
its two low bits alone, and every checked definition fixes these to announce the size of its words
(`Definition.Valid.announced_of_matches`), so no boundary is missed (`Registry.list_encoded`). The
printed forms of a word, after `0x` and as pairs of digits, stand for its bytes when they are given
as input. -/
namespace CustomIsa

/-! ## Words and bytes as input -/

namespace Command

/-- Digits of a 32-bit number are read as that number; none of them is an underscore or a sign. -/
theorem hex32_digits {digits : List Char} {n : Nat} (hne : digits ≠ [])
    (hdigits : ∀ c ∈ digits, Text.isDigitOf 16 c = true)
    (hread : Text.digitsFrom 16 0 digits = some n) (hn : n < 2 ^ 32) :
    Text.hex32 (digits.filter (· ≠ '_')) = .ok n := by
  have hkept : digits.filter (· ≠ '_') = digits := by
    refine List.filter_eq_self.mpr fun c hc => decide_eq_true ?_
    rintro rfl
    cases hdigits _ hc
  rw [hkept]
  unfold Text.hex32
  split
  · exact absurd rfl hne
  · cases hdigits '+' List.mem_cons_self
  · cases hdigits '+' List.mem_cons_self
  · exact Text.hex32From_eq_ok hread hn

theorem wordBytes_hexPadded {w : Word} (h : w.Announced) {width : Nat} (hpos : 0 < width)
    (hfits : w.bits < 16 ^ width) :
    wordBytes (Text.hexPadded width w.bits).toList = .ok w.toBytes := by
  have hne : (Text.hexPadded width w.bits).toList ≠ [] := by
    rw [← List.length_pos_iff, Text.length_hexPadded hpos hfits]
    exact hpos
  have hword : w.bits < 2 ^ 32 :=
    Nat.lt_of_lt_of_le w.fits (Nat.pow_le_pow_right (by decide) w.size.bits_le)
  have hdigits := hex32_digits hne (fun c hc => Text.isDigitOf_of_mem_hexPadded hc)
    (Text.digitsFrom_hexPadded width w.bits) hword
  have hsize : WordSize.announcedBy w.bits = w.size := h
  -- a word that announces 16 bits has no more than these
  have hnarrow : ¬(w.size = .half ∧ 0xFFFF < w.bits) := by
    rintro ⟨hhalf, hlarge⟩
    have hbound := w.fits
    rw [hhalf, WordSize.bits] at hbound
    omega
  rw [wordBytes, hdigits]
  simp only [hsize]
  rw [if_neg hnarrow, Word.ofBits_bits]

/-- **A word printed after `0x` is read as its bytes.** -/
theorem inputBytes_render {w : Word} (h : w.Announced) : inputBytes w.render = .ok w.toBytes := by
  have hpadded : ∀ {width : Nat}, 0 < width → w.bits < 16 ^ width →
      inputBytes ("0x" ++ Text.hexPadded width w.bits) = .ok w.toBytes := by
    intro width hpos hfits
    have hplain : ∀ c ∈ (Text.hexPadded width w.bits).toList, Text.isBlank c = false := fun c hc =>
      (Assembly.isPlain_iff.mp (Assembly.isPlain_of_isDigitOf
        (Text.isDigitOf_of_mem_hexPadded hc))).1
    have htrim : Text.trimChars ("0x" ++ Text.hexPadded width w.bits).toList =
        '0' :: 'x' :: (Text.hexPadded width w.bits).toList := by
      rw [String.toList_append]
      exact Text.trimChars_of_tight (Text.tight_of_forall
        (List.forall_mem_cons.mpr ⟨rfl, List.forall_mem_cons.mpr ⟨rfl, hplain⟩⟩))
    rw [inputBytes, htrim]
    exact wordBytes_hexPadded h hpos hfits
  have hfits := w.fits
  rw [Word.render]
  cases hsize : w.size with
  | half =>
    rw [hsize] at hfits
    exact hpadded (by decide) hfits
  | full =>
    rw [hsize] at hfits
    exact hpadded (by decide) hfits

/-- The digits of bytes, two for each. -/
def byteDigits (bytes : List UInt8) : List Char := bytes.flatMap fun b => (Text.hexByte b).toList

theorem isDigitOf_of_mem_byteDigits {bytes : List UInt8} {c : Char} (h : c ∈ byteDigits bytes) :
    Text.isDigitOf 16 c = true := by
  obtain ⟨b, -, hc⟩ := List.mem_flatMap.mp h
  exact Text.isDigitOf_of_mem_hexPadded hc

theorem pairBytes_byteDigits (bytes : List UInt8) : pairBytes (byteDigits bytes) = .ok bytes := by
  induction bytes with
  | nil => rfl
  | cons b bytes ih =>
    obtain ⟨hi, lo, htext, hvalue⟩ := Text.toList_hexByte b
    rw [byteDigits, List.flatMap_cons, htext, ← byteDigits]
    show pairBytes (hi :: lo :: byteDigits bytes) = _
    rw [pairBytes, ih, hvalue, Option.getD_some, UInt8.ofNat_toNat]
    rfl

theorem filter_byteText (bytes : List UInt8) :
    (Assembly.byteText bytes).toList.filter (fun c => !Text.isBlank c) = byteDigits bytes := by
  have hkept : ∀ b, (Text.hexByte b).toList.filter (fun c => !Text.isBlank c) =
      (Text.hexByte b).toList := fun b => List.filter_eq_self.mpr fun c hc => by
    rw [(Assembly.isPlain_iff.mp (Assembly.isPlain_of_isDigitOf
      (Text.isDigitOf_of_mem_hexPadded hc))).1]
    rfl
  rw [Assembly.byteText, String.toList_intercalate, List.map_map]
  induction bytes with
  | nil => rfl
  | cons b bytes ih =>
    cases bytes with
    | nil =>
      rw [List.map_singleton, List.intercalate_singleton, byteDigits, List.flatMap_singleton]
      exact hkept b
    | cons b' bytes =>
      rw [List.map_cons, List.map_cons, List.intercalate_cons_cons, List.filter_append,
        List.filter_append, ← List.map_cons, ih, Function.comp_apply, hkept]
      show ((Text.hexByte b).toList ++ []) ++ byteDigits (b' :: bytes) = _
      rw [List.append_nil]
      rfl

/-- **Pairs of digits are read as the bytes they were printed for**, with blanks anywhere. -/
theorem inputBytes_pairs {bytes : List UInt8} {input : String}
    (h : Text.AgreeUpToBlanks input (Assembly.byteText bytes)) : inputBytes input = .ok bytes := by
  rw [Text.AgreeUpToBlanks, filter_byteText, ← Text.filter_trimChars] at h
  -- what follows a zero is a digit, so the text is no word after `0x`
  have hdigit : ∀ c ∈ Text.trimChars input.toList, Text.isBlank c = false →
      Text.isDigitOf 16 c = true := fun c hc hblank => by
    have hmem : c ∈ (Text.trimChars input.toList).filter (fun c => !Text.isBlank c) :=
      List.mem_filter.mpr ⟨hc, by rw [hblank]; rfl⟩
    exact isDigitOf_of_mem_byteDigits (h ▸ hmem)
  unfold inputBytes
  split
  · rename_i digits heq
    cases hdigit 'x' (heq ▸ by simp) rfl
  · rename_i digits heq
    cases hdigit 'X' (heq ▸ by simp) rfl
  · simp only [h]
    rw [if_pos (List.all_eq_true.mpr fun c hc => isDigitOf_of_mem_byteDigits hc),
      pairBytes_byteDigits]

end Command

/-! ## Byte streams -/

namespace Registry
open Assembly

/-- A word at the start of a stream has a line of its own, and the rest is listed after it. -/
theorem listFrom_toBytes_append (r : Registry) (listing : ListingSettings) {w : Word}
    (h : w.Announced) (offset : Nat) (t : List UInt8) :
    r.listFrom listing offset (w.toBytes ++ t) =
      ⟨offset, w.toBytes, r.disassemble listing w⟩ ::
        r.listFrom listing (offset + w.toBytes.length) t := by
  have hread := Word.read_toBytes_append h offset t
  have hlength := w.length_toBytes
  obtain ⟨first, rest, hbytes, -⟩ := w.head_toBytes
  rw [hbytes] at hread hlength ⊢
  rw [List.cons_append] at hread ⊢
  rw [listFrom, hread]
  -- the first byte is already taken when the rest of the word is dropped
  have hrest : rest.length = w.size.bytes - 1 := by
    rw [List.length_cons] at hlength
    omega
  simp only [← hrest, List.drop_left]
  rw [← List.cons_append, ← hlength, List.take_left]

/-- **Words that announce their sizes are listed one by one**, each at the offset where the bytes of
those before it end. -/
theorem listFrom_words (r : Registry) (listing : ListingSettings) {ws : List Word}
    (h : ∀ w ∈ ws, w.Announced) (offset : Nat) :
    (r.listFrom listing offset (ws.flatMap Word.toBytes)).length = ws.length ∧
      ∀ (i : Nat) (w : Word), ws[i]? = some w →
        (r.listFrom listing offset (ws.flatMap Word.toBytes))[i]? =
          some ⟨offset + ((ws.take i).flatMap Word.toBytes).length, w.toBytes,
            r.disassemble listing w⟩ := by
  induction ws generalizing offset with
  | nil =>
    rw [List.flatMap_nil, listFrom]
    refine ⟨rfl, fun i w hw => ?_⟩
    rw [List.getElem?_nil] at hw
    cases hw
  | cons first ws ih =>
    obtain ⟨hfirst, hws⟩ := List.forall_mem_cons.mp h
    obtain ⟨hlength, hlines⟩ := ih hws (offset + first.toBytes.length)
    rw [List.flatMap_cons, listFrom_toBytes_append r listing hfirst]
    refine ⟨by rw [List.length_cons, hlength, List.length_cons], fun i w hw => ?_⟩
    cases i with
    | zero =>
      rw [List.getElem?_cons_zero] at hw ⊢
      obtain rfl := Option.some.inj hw
      rfl
    | succ i =>
      rw [List.getElem?_cons_succ] at hw ⊢
      rw [hlines i w hw, List.take_succ_cons, List.flatMap_cons, List.length_append,
        Nat.add_assoc]

/-- **A program is listed as it was encoded.** The bytes of encoded words, one after another, give
one line for each word, at the offset where the words before it end, with its bytes and its text. As
input, the printed word and the printed pairs of digits, whatever blanks stand in them, give the
bytes of the word. -/
theorem list_encoded {settings : RegistrySettings} {extensions : List Extension} {r : Registry}
    (hload : load settings extensions = .ok r) {ws : List Word}
    (hws : ∀ w ∈ ws, ∃ e ∈ r.entries, ∃ b, r.encode e b = .ok w) (listing : ListingSettings) :
    (r.list listing (ws.flatMap Word.toBytes)).length = ws.length ∧
      (∀ (i : Nat) (w : Word), ws[i]? = some w →
        (r.list listing (ws.flatMap Word.toBytes))[i]? =
            some ⟨((ws.take i).flatMap Word.toBytes).length, w.toBytes, r.disassemble listing w⟩ ∧
          ∃ text, r.disassemble listing w = .ok text) ∧
      ∀ w ∈ ws, Command.inputBytes w.render = .ok w.toBytes ∧
        ∀ input, Text.AgreeUpToBlanks input (byteText w.toBytes) →
          Command.inputBytes input = .ok w.toBytes := by
  have hr := loaded_of_load hload
  have hann : ∀ w ∈ ws, w.Announced := fun w hw => by
    obtain ⟨e, he, b, henc⟩ := hws w hw
    exact hr.announced_of_encode he henc
  obtain ⟨hlength, hlines⟩ := listFrom_words r listing hann 0
  refine ⟨hlength, fun i w hw => ⟨?_, ?_⟩, fun w hw => ⟨?_, fun input hinput => ?_⟩⟩
  · rw [list, hlines i w hw, Nat.zero_add]
  · obtain ⟨e, he, b, henc⟩ := hws w (List.mem_of_getElem? hw)
    exact ⟨_, by rw [disassemble, hr.decode_encoded he henc]; rfl⟩
  · exact Command.inputBytes_render (hann w hw)
  · exact Command.inputBytes_pairs hinput

/-- A definition with words of 16 bits and one with words of 32 bits. -/
def mixedSizes : Extension where
  label := "x"
  instructions := [
    { mnemonic := "c"
      variant := .compressed
      operands := [⟨"rs", .register, 32, false, .input, 8⟩]
      layout := ⟨[⟨1, 0, 2⟩, ⟨15, 5, 3⟩], [⟨"rs", 4, 2, 0⟩]⟩ },
    { mnemonic := "i"
      operands := [⟨"imm", .immediate, 12, true, .input, 0⟩]
      layout := ⟨[⟨6, 0, 0x2b⟩, ⟨31, 19, 7⟩], [⟨"imm", 18, 7, 0⟩]⟩ }]

/-- A program of a short, a long and a short word has three lines, the last of them at byte 6. The
pairs of its first word may be set apart by a tab. -/
theorem list_encoded_mixed :
    ∃ r lines, load {} [mixedSizes] = .ok r ∧
      r.list {} ([.ofBits .half 0x66, .ofBits .full 0x3fffab, .ofBits .half 0x7e].flatMap
        Word.toBytes) = lines ∧ lines.length = 3 ∧
      lines[2]?.map (fun line => (line.offset, line.bytes)) = some (6, [0x7e, 0]) ∧
      Command.inputBytes "66\t00" = .ok [0x66, 0] := by
  have hrun : (load {} [mixedSizes]).toOption.any (fun r =>
      [Word.ofBits .half 0x66, .ofBits .full 0x3fffab, .ofBits .half 0x7e].all fun w =>
        r.entries.any fun e =>
          [NameMap.ofList [("rs", 9)], .ofList [("imm", -1)], .ofList [("rs", 15)]].any fun b =>
            decide ((r.encode e b).toOption = some w)) = true := by
    decide +kernel
  obtain ⟨r, hload, hall⟩ := Option.any_eq_true _ _ |>.mp hrun
  have hload := eq_ok_of_toOption hload
  have hws : ∀ w ∈ [Word.ofBits .half 0x66, .ofBits .full 0x3fffab, .ofBits .half 0x7e],
      ∃ e ∈ r.entries, ∃ b, r.encode e b = .ok w := fun w hw => by
    obtain ⟨e, he, hany⟩ := List.any_eq_true.mp (List.all_eq_true.mp hall w hw)
    obtain ⟨b, -, henc⟩ := List.any_eq_true.mp hany
    exact ⟨e, he, b, eq_ok_of_toOption (of_decide_eq_true henc)⟩
  obtain ⟨hlength, hlines, hinput⟩ := list_encoded hload hws {}
  refine ⟨r, _, hload, rfl, hlength, ?_, (hinput _ List.mem_cons_self).2 "66\t00" ?_⟩
  · rw [(hlines 2 _ rfl).1]
    rfl
  · decide +kernel

end Registry
end CustomIsa
