import Mathlib.Data.List.Basic
import Mathlib.Tactic.IntervalCases
import CustomIsa.Text.Numeral
/-! # Numbers read back from their text

Digits that are written for a number in a base of at most sixteen are read as that number
(`Text.natOfDigits?_toDigits`), also when they are filled up with zeros in front, and so are decimal
texts with a sign. -/
namespace CustomIsa.Text

/-! ## Decimal text -/

theorem toList_natToString (n : Nat) : (toString n).toList = Nat.toDigits 10 n := by
  rw [Nat.toString_eq_ofList_toDigits, String.toList_ofList]

theorem isDigit_of_mem_natToString {n : Nat} {c : Char} (h : c ∈ (toString n).toList) :
    c.isDigit = true := by
  rw [toList_natToString] at h
  exact Nat.isDigit_of_mem_toDigits (by decide) (by decide) h

theorem toList_intToString (v : Int) :
    (toString v).toList = match v with
      | .ofNat n => (toString n).toList
      | .negSucc n => '-' :: (toString (n + 1)).toList := by
  cases v with
  | ofNat n => rfl
  | negSucc n =>
    show ("-" ++ toString (n + 1)).toList = _
    rw [String.toList_append]
    rfl

theorem isDigitOf_ten (c : Char) : isDigitOf 10 c = c.isDigit := by
  have hdigit : c.isDigit = true ↔ 48 ≤ c.toNat ∧ c.toNat ≤ 57 := by
    simp [Char.isDigit, UInt32.le_iff_toNat_le]
  unfold isDigitOf digitValue?
  by_cases hrange : 48 ≤ c.toNat ∧ c.toNat ≤ 57
  · rw [hdigit.mpr hrange]
    simp only [if_pos hrange]
    rw [Option.filter_some, if_pos (decide_eq_true (by omega))]
    rfl
  · rw [Bool.eq_false_iff.mpr (hrange ∘ hdigit.mp)]
    simp only [if_neg hrange, Option.isSome_eq_false_iff, Option.isNone_iff_eq_none]
    -- a letter stands for ten or more
    split
    · rw [Option.filter_some, if_neg (by simp)]
    · split
      · rw [Option.filter_some, if_neg (by simp)]
      · rfl

/-! ## Digits of any base -/

section
variable {base : Nat}

theorem digitValue?_digitChar {d : Nat} (hd : d < base) (hbase : base ≤ 16) :
    digitValue? base (Nat.digitChar d) = some d := by
  have hvalue : digitValue? 16 (Nat.digitChar d) = some d := by
    have hlt : d < 16 := by omega
    interval_cases d <;> rfl
  -- a smaller base only asks for more
  rw [digitValue?, Option.filter_eq_some_iff] at hvalue ⊢
  exact ⟨hvalue.1, decide_eq_true hd⟩

theorem digitsFrom_append (acc : Nat) (cs ds : List Char) :
    digitsFrom base acc (cs ++ ds) = (digitsFrom base acc cs).bind (digitsFrom base · ds) := by
  induction cs generalizing acc with
  | nil => rfl
  | cons c cs ih =>
    rw [List.cons_append, digitsFrom, digitsFrom, Option.bind_assoc]
    simp only [ih]

theorem digitsFrom_toDigits (h : 1 < base) (hbase : base ≤ 16) (n : Nat) :
    digitsFrom base 0 (Nat.toDigits base n) = some n := by
  induction n using Nat.strongRecOn with
  | ind n ih =>
    rw [Nat.toDigits_eq_if h]
    split
    · rename_i hlt
      rw [digitsFrom, digitValue?_digitChar hlt hbase, Option.bind_some, digitsFrom, Nat.zero_mul,
        Nat.zero_add]
    · have hlast : n % base < base := Nat.mod_lt _ (by omega)
      rw [digitsFrom_append, ih (n / base) (Nat.div_lt_self (by omega) h), Option.bind_some,
        digitsFrom, digitValue?_digitChar hlast hbase, Option.bind_some, digitsFrom,
        Nat.div_add_mod']

/-- **The digits of a number are read as that number.** -/
theorem natOfDigits?_toDigits (h : 1 < base) (hbase : base ≤ 16) (n : Nat) :
    natOfDigits? base (Nat.toDigits base n) = some n := by
  rw [natOfDigits?, if_neg Nat.toDigits_ne_nil, digitsFrom_toDigits h hbase]

theorem isDigitOf_of_mem_toDigits (h : 1 < base) (hbase : base ≤ 16) {n : Nat} {c : Char}
    (hc : c ∈ Nat.toDigits base n) : isDigitOf base c = true := by
  induction n using Nat.strongRecOn with
  | ind n ih =>
    have hdigit : ∀ d, d < base → isDigitOf base (Nat.digitChar d) = true := fun d hd => by
      rw [isDigitOf, digitValue?_digitChar hd hbase]
      rfl
    rw [Nat.toDigits_eq_if h] at hc
    split at hc
    · rename_i hlt
      exact List.mem_singleton.mp hc ▸ hdigit n hlt
    · rcases List.mem_append.mp hc with hc | hc
      · exact ih (n / base) (Nat.div_lt_self (by omega) h) hc
      · exact List.mem_singleton.mp hc ▸ hdigit _ (Nat.mod_lt _ (by omega))

/-- Reading on never makes a number smaller. -/
theorem le_of_digitsFrom (h : 0 < base) {acc n : Nat} {cs : List Char}
    (hread : digitsFrom base acc cs = some n) : acc ≤ n := by
  induction cs generalizing acc with
  | nil => exact Nat.le_of_eq (Option.some.inj hread)
  | cons c cs ih =>
    obtain ⟨d, -, hrest⟩ := Option.bind_eq_some_iff.mp hread
    have hgrow : acc ≤ acc * base := Nat.le_mul_of_pos_right acc h
    have hle := ih hrest
    omega

end

/-! ## Hexadecimal text of a fixed width -/

theorem digitsFrom_replicate_zero (k : Nat) (cs : List Char) :
    digitsFrom 16 0 (List.replicate k '0' ++ cs) = digitsFrom 16 0 cs := by
  induction k with
  | zero => rfl
  | succ k ih => exact ih

theorem digitsFrom_hexPadded (width n : Nat) :
    digitsFrom 16 0 (hexPadded width n).toList = some n := by
  rw [hexPadded, String.toList_ofList, digitsFrom_replicate_zero,
    digitsFrom_toDigits (by decide) (by decide)]

theorem isDigitOf_of_mem_hexPadded {width n : Nat} {c : Char}
    (h : c ∈ (hexPadded width n).toList) : isDigitOf 16 c = true := by
  rw [hexPadded, String.toList_ofList] at h
  rcases List.mem_append.mp h with h | h
  · rw [(List.mem_replicate.mp h).2]
    rfl
  · exact isDigitOf_of_mem_toDigits (by decide) (by decide) h

theorem length_hexPadded {width n : Nat} (hpos : 0 < width) (h : n < 16 ^ width) :
    (hexPadded width n).toList.length = width := by
  have hle := (Nat.length_toDigits_le_iff (by decide) hpos).mpr h
  rw [hexPadded, String.toList_ofList, List.length_append, List.length_replicate]
  omega

/-- A byte is written as two digits that denote it. -/
theorem toList_hexByte (b : UInt8) :
    ∃ hi lo, (hexByte b).toList = [hi, lo] ∧ natOfDigits? 16 [hi, lo] = some b.toNat := by
  have hlength : (hexByte b).toList.length = 2 := length_hexPadded (by decide) b.toNat_lt
  obtain ⟨hi, lo, htext⟩ := List.length_eq_two.mp hlength
  refine ⟨hi, lo, htext, ?_⟩
  rw [natOfDigits?, if_neg (List.cons_ne_nil _ _), ← htext]
  exact digitsFrom_hexPadded 2 b.toNat

/-- Digits of a number that has 32 bits are read without an overflow on the way. -/
theorem hex32From_eq_ok {acc n : Nat} {cs : List Char} (h : digitsFrom 16 acc cs = some n)
    (hn : n < 2 ^ 32) : hex32From acc cs = .ok n := by
  induction cs generalizing acc with
  | nil => exact congrArg Except.ok (Option.some.inj h)
  | cons c cs ih =>
    obtain ⟨d, hd, hrest⟩ := Option.bind_eq_some_iff.mp h
    have hle := le_of_digitsFrom (by decide) hrest
    rw [hex32From, hd]
    simp only
    rw [if_pos (by omega), ih hrest]

end CustomIsa.Text
