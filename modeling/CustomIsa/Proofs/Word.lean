import CustomIsa.Word
/-! # Words in byte streams

The bytes of a word that announces its own size are read back as that word, whatever follows
them. Conversely bytes start with such a word if there are as many of them as the first one
announces. -/
namespace CustomIsa

/-- A word has a first byte. -/
theorem WordSize.bytes_eq_succ (size : WordSize) : ∃ n, size.bytes = n + 1 := by
  cases size with
  | half => exact ⟨1, rfl⟩
  | full => exact ⟨3, rfl⟩

namespace Word

/-- The low bits of the word announce its size. -/
def Announced (w : Word) : Prop := WordSize.announcedBy w.bits = w.size

@[simp] theorem length_toBytes (w : Word) : w.toBytes.length = w.size.bytes := by
  simp [toBytes]

/-- The first bytes of a number, put together, are its remainder. -/
theorem ofLittleEndian_bytes (n b : Nat) :
    ofLittleEndian ((List.range n).map fun i => UInt8.ofNat (b >>> (8 * i))) = b % 256 ^ n := by
  induction n generalizing b with
  | zero => simp [ofLittleEndian, Nat.mod_one]
  | succ n ih =>
    have hshift : ∀ i, b >>> (8 * (i + 1)) = (b >>> 8) >>> (8 * i) := by
      intro i
      rw [← Nat.shiftRight_add]
      congr 1
      omega
    rw [List.range_succ_eq_map, List.map_cons, List.map_map, ofLittleEndian]
    simp only [Function.comp_def, Nat.succ_eq_add_one, hshift, ih, Nat.mul_zero,
      Nat.shiftRight_zero]
    rw [UInt8.toNat_ofNat', Nat.shiftRight_eq_div_pow, show 2 ^ 8 = 256 from rfl,
      Nat.pow_succ', Nat.mod_mul]

theorem ofLittleEndian_toBytes (w : Word) : ofLittleEndian w.toBytes = w.bits := by
  rw [toBytes, ofLittleEndian_bytes]
  have hfits := w.fits
  apply Nat.mod_eq_of_lt
  cases hsize : w.size with
  | half => rw [hsize] at hfits; exact hfits
  | full => rw [hsize] at hfits; exact hfits

theorem ofBits_bits (w : Word) : ofBits w.size w.bits = w := by
  cases w with | mk size bits fits =>
    simp only [ofBits, Nat.mod_eq_of_lt fits]

/-- The first byte of a word announces the same size as the word. -/
theorem head_toBytes (w : Word) :
    ∃ first rest, w.toBytes = first :: rest ∧
      WordSize.announcedBy first.toNat = WordSize.announcedBy w.bits := by
  obtain ⟨n, hn⟩ := w.size.bytes_eq_succ
  refine ⟨_, _, by rw [toBytes, hn, List.range_succ_eq_map, List.map_cons], ?_⟩
  rw [Nat.mul_zero, Nat.shiftRight_zero, UInt8.toNat_ofNat', WordSize.announcedBy,
    WordSize.announcedBy, Nat.mod_mod_of_dvd _ (by decide)]

/-- **Reading the bytes of a word gives the word**, at any offset and before any other bytes. -/
theorem read_toBytes_append {w : Word} (h : w.Announced) (offset : Nat) (t : List UInt8) :
    read offset (w.toBytes ++ t) = .ok w := by
  obtain ⟨first, rest, hbytes, hfirst⟩ := w.head_toBytes
  have hlen : (first :: rest).length = w.size.bytes := by rw [← hbytes, length_toBytes]
  have hsize : WordSize.announcedBy first.toNat = w.size := hfirst.trans h
  rw [hbytes, List.cons_append, read]
  simp only [hsize]
  rw [if_neg, ← List.cons_append, ← hlen, List.take_left, ← hbytes, ofLittleEndian_toBytes,
    ofBits_bits]
  rw [← List.cons_append, List.length_append, hlen]
  omega

theorem ofLittleEndian_lt (bytes : List UInt8) : ofLittleEndian bytes < 256 ^ bytes.length := by
  induction bytes with
  | nil => decide
  | cons b bs ih =>
    have hb := b.toNat_lt
    rw [ofLittleEndian, List.length_cons, Nat.pow_succ]
    omega

/-- A byte list is that of the number it stands for. -/
theorem bytes_ofLittleEndian (bytes : List UInt8) :
    ((List.range bytes.length).map fun i => UInt8.ofNat (ofLittleEndian bytes >>> (8 * i))) =
      bytes := by
  induction bytes with
  | nil => rfl
  | cons b bs ih =>
    have hlow : UInt8.ofNat ((b.toNat + 256 * ofLittleEndian bs) >>> (8 * 0)) = b := by
      rw [Nat.mul_zero, Nat.shiftRight_zero, ← UInt8.toNat_inj, UInt8.toNat_ofNat']
      have hb := b.toNat_lt
      omega
    have hshift : ∀ i, (b.toNat + 256 * ofLittleEndian bs) >>> (8 * (i + 1)) =
        ofLittleEndian bs >>> (8 * i) := by
      intro i
      have hb := b.toNat_lt
      rw [Nat.mul_succ, Nat.add_comm (8 * i), Nat.shiftRight_add,
        Nat.shiftRight_eq_div_pow _ 8]
      congr 1
      omega
    rw [List.length_cons, List.range_succ_eq_map, List.map_cons, List.map_map, ofLittleEndian, hlow]
    simp only [Function.comp_def, Nat.succ_eq_add_one, hshift, ih]

theorem toBytes_ofBits {size : WordSize} {bytes : List UInt8} (h : bytes.length = size.bytes) :
    (ofBits size (ofLittleEndian bytes)).toBytes = bytes := by
  have hfits : ofLittleEndian bytes < 2 ^ size.bits := by
    have hlt := ofLittleEndian_lt bytes
    rw [h] at hlt
    cases size with
    | half => exact hlt
    | full => exact hlt
  rw [toBytes, ofBits]
  simp only [Nat.mod_eq_of_lt hfits]
  rw [← h, bytes_ofLittleEndian]

/-- **Bytes start with a word** if there are as many of them as the first one announces. -/
theorem exists_toBytes_append {first : UInt8} {rest : List UInt8}
    (h : (WordSize.announcedBy first.toNat).bytes ≤ (first :: rest).length) :
    ∃ (w : Word) (t : List UInt8), w.Announced ∧ first :: rest = w.toBytes ++ t := by
  have htake := toBytes_ofBits (List.length_take_of_le h)
  refine ⟨_, (first :: rest).drop (WordSize.announcedBy first.toNat).bytes, ?_,
    by rw [htake, List.take_append_drop]⟩
  obtain ⟨first', rest', hbytes, hfirst⟩ :=
    head_toBytes (ofBits _ (ofLittleEndian ((first :: rest).take _)))
  rw [htake] at hbytes
  obtain ⟨n, hn⟩ := (WordSize.announcedBy first.toNat).bytes_eq_succ
  rw [hn, List.take_succ_cons] at hbytes
  obtain ⟨rfl, -⟩ := List.cons.inj hbytes
  exact hfirst.symm

end Word
end CustomIsa
