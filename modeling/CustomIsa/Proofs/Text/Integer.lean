import Mathlib.Data.List.Induction
import CustomIsa.Assembly.Line
import CustomIsa.Proofs.Range
import CustomIsa.Proofs.Text.Numeral
import CustomIsa.Template.Sexp
/-! # The spelling of integers

The grammar of integer text: digits of a base (`Text.Numeral`), numbers in decimal or, after a mark,
in hexadecimal (`Text.Magnitude`), and an optional minus sign before them (`Text.Spells`). A reader
of integers takes exactly the texts of the grammar whose number lies in its range
(`Text.integer?_eq_some_iff`), and the immediates of assembly lines and the literals of templates
are two such readers (`Text.read_iff_spelled`).

Hexadecimal digits may have a sign of their own between the mark and the first digit, so that `0x-5`
is a number. The grammar says of each text which sign stands there. Without one the number is
nonnegative, and its negation has 128 bits; with one it can be the least number of 128 bits, which
has no negation. -/
namespace CustomIsa.Text

/-! ## Digits -/

/-- The character is the digit of a number below the base, in lower or upper case. -/
def Digit (base : Nat) (c : Char) (d : Nat) : Prop :=
  d < base ∧ (c = Nat.digitChar d ∨ c = (Nat.digitChar d).toUpper)

/-- One or more digits, and the number they denote. -/
inductive Numeral (base : Nat) : List Char → Nat → Prop where
  | digit {c : Char} {d : Nat} (h : Digit base c d) : Numeral base [c] d
  | snoc {cs : List Char} {n : Nat} {c : Char} {d : Nat} (hcs : Numeral base cs n)
    (h : Digit base c d) : Numeral base (cs ++ [c]) (n * base + d)

section
variable {base : Nat}

theorem digitValue?_eq_some_iff (hbase : base ≤ 16) {c : Char} {d : Nat} :
    digitValue? base c = some d ↔ Digit base c d := by
  constructor
  · intro h
    obtain ⟨hvalue, hd⟩ := Option.filter_eq_some_iff.mp h
    refine ⟨of_decide_eq_true hd, ?_⟩
    have hc := Char.ofNat_toNat c
    generalize c.toNat = n at hvalue hc
    subst hc
    -- one range of codes for each kind of digit
    split_ifs at hvalue with hdecimal hlower hupper
    · obtain ⟨hlo, hhi⟩ := hdecimal
      obtain rfl := Option.some.inj hvalue
      interval_cases n <;> exact .inl rfl
    · obtain ⟨hlo, hhi⟩ := hlower
      obtain rfl := Option.some.inj hvalue
      interval_cases n <;> exact .inl rfl
    · obtain ⟨hlo, hhi⟩ := hupper
      obtain rfl := Option.some.inj hvalue
      interval_cases n <;> exact .inr rfl
  · rintro ⟨hd, rfl | rfl⟩
    · exact digitValue?_digitChar hd hbase
    · have hvalue : digitValue? 16 (Nat.digitChar d).toUpper = some d := by
        have hlt : d < 16 := by omega
        interval_cases d <;> rfl
      rw [digitValue?, Option.filter_eq_some_iff] at hvalue ⊢
      exact ⟨hvalue.1, decide_eq_true hd⟩

theorem natOfDigits?_snoc {cs : List Char} {c : Char} {v : Nat} (hcs : cs ≠ []) :
    natOfDigits? base (cs ++ [c]) = some v ↔
      ∃ n d, natOfDigits? base cs = some n ∧ digitValue? base c = some d ∧ n * base + d = v := by
  rw [natOfDigits?, natOfDigits?, if_neg hcs, if_neg (by simp), digitsFrom_append]
  simp only [digitsFrom, Option.bind_eq_some_iff, Option.some.injEq]
  constructor
  · rintro ⟨n, hn, d, hd, hv⟩
    exact ⟨n, d, hn, hd, hv⟩
  · rintro ⟨n, d, hn, hd, hv⟩
    exact ⟨n, hn, d, hd, hv⟩

/-- **A number is read from its digits and from nothing else.** -/
theorem natOfDigits?_eq_some_iff (hbase : base ≤ 16) {cs : List Char} {n : Nat} :
    natOfDigits? base cs = some n ↔ Numeral base cs n := by
  constructor
  · intro h
    -- the last digit counts least, so the text is taken apart from its end
    induction cs using List.reverseRecOn generalizing n with
    | nil => cases h
    | append_singleton cs c ih =>
      by_cases hcs : cs = []
      · subst hcs
        obtain ⟨d, hd, hn⟩ := Option.bind_eq_some_iff.mp h
        obtain rfl : d = n := by simpa [digitsFrom] using hn
        exact .digit ((digitValue?_eq_some_iff hbase).mp hd)
      · obtain ⟨m, d, hm, hd, rfl⟩ := (natOfDigits?_snoc hcs).mp h
        exact .snoc (ih hm) ((digitValue?_eq_some_iff hbase).mp hd)
  · intro h
    induction h with
    | @digit c d h =>
      rw [natOfDigits?, if_neg (List.cons_ne_nil _ _), digitsFrom,
        (digitValue?_eq_some_iff hbase).mpr h]
      simp [digitsFrom]
    | @snoc cs n c d hcs h ih =>
      have hne : cs ≠ [] := by
        rintro rfl
        cases ih
      exact (natOfDigits?_snoc hne).mpr ⟨n, d, ih, (digitValue?_eq_some_iff hbase).mpr h, rfl⟩

theorem Numeral.digit_of_mem {cs : List Char} {n : Nat} {c : Char} (h : Numeral base cs n)
    (hc : c ∈ cs) : ∃ d, Digit base c d := by
  induction h with
  | digit h => exact ⟨_, List.mem_singleton.mp hc ▸ h⟩
  | snoc _ h ih =>
    rcases List.mem_append.mp hc with hc | hc
    · exact ih hc
    · exact ⟨_, List.mem_singleton.mp hc ▸ h⟩

theorem numeral_toDigits (h : 1 < base) (hbase : base ≤ 16) (n : Nat) :
    Numeral base (Nat.toDigits base n) n :=
  (natOfDigits?_eq_some_iff hbase).mp (natOfDigits?_toDigits h hbase n)

theorem Numeral.not_mem {cs : List Char} {n : Nat} {c : Char} (h : Numeral base cs n)
    (hbase : base ≤ 16) (hc : digitValue? base c = none) : c ∉ cs := fun hmem => by
  obtain ⟨d, hd⟩ := h.digit_of_mem hmem
  cases hc.symm.trans ((digitValue?_eq_some_iff hbase).mpr hd)

/-! ## Signs and marks -/

/-- Digits after an optional sign, the sign, and the number they denote. -/
inductive Signed (base : Nat) : Option Char → List Char → Int → Prop where
  | bare {cs : List Char} {n : Nat} (h : Numeral base cs n) : Signed base none cs n
  | plus {cs : List Char} {n : Nat} (h : Numeral base cs n) : Signed base (some '+') ('+' :: cs) n
  | minus {cs : List Char} {n : Nat} (h : Numeral base cs n) :
    Signed base (some '-') ('-' :: cs) (-n)

theorem intOfDigits?_eq_some_iff (hbase : base ≤ 16) {cs : List Char} {v : Int} :
    intOfDigits? base cs = some v ↔ ∃ sign, Signed base sign cs v := by
  constructor
  · intro h
    unfold intOfDigits? at h
    split at h
    all_goals
      obtain ⟨n, hn, rfl⟩ := Option.map_eq_some_iff.mp h
      have hdigits := (natOfDigits?_eq_some_iff hbase).mp hn
    · exact ⟨_, .minus hdigits⟩
    · exact ⟨_, .plus hdigits⟩
    · exact ⟨_, .bare hdigits⟩
  · rintro ⟨sign, h⟩
    cases h with
    | @bare _ n h =>
      unfold intOfDigits?
      split
      · exact absurd List.mem_cons_self (h.not_mem hbase rfl)
      · exact absurd List.mem_cons_self (h.not_mem hbase rfl)
      · exact Option.map_eq_some_iff.mpr ⟨n, (natOfDigits?_eq_some_iff hbase).mpr h, rfl⟩
    | @plus _ n h =>
      exact Option.map_eq_some_iff.mpr ⟨n, (natOfDigits?_eq_some_iff hbase).mpr h, rfl⟩
    | @minus _ n h =>
      exact Option.map_eq_some_iff.mpr ⟨n, (natOfDigits?_eq_some_iff hbase).mpr h, rfl⟩

end

/-- Decimal digits, or hexadecimal digits after a zero and one of the marks; the sign that stands
after the mark, if there is one, and the number. -/
inductive Magnitude (marks : List Char) : Option Char → List Char → Int → Prop where
  | decimal {cs : List Char} {n : Nat} (h : Numeral 10 cs n) : Magnitude marks none cs n
  | hexadecimal {mark : Char} {sign : Option Char} {cs : List Char} {v : Int}
    (hmark : mark ∈ marks) (h : Signed 16 sign cs v) : Magnitude marks sign ('0' :: mark :: cs) v

/-- An optional minus sign and a magnitude, the sign that stands after the mark, and the number. -/
inductive Spells (marks : List Char) (sign : Option Char) : List Char → Int → Prop where
  | plain {cs : List Char} {v : Int} (h : Magnitude marks sign cs v) : Spells marks sign cs v
  | minus {cs : List Char} {v : Int} (h : Magnitude marks sign cs v) :
    Spells marks sign ('-' :: cs) (-v)

section
variable {marks cs : List Char} {v : Int}

/-- A magnitude has no minus sign in front. -/
theorem not_magnitude_minus {sign : Option Char} : ¬Magnitude marks sign ('-' :: cs) v := by
  intro h
  cases h with
  | decimal h => exact h.not_mem (by decide) rfl List.mem_cons_self

/-- Only a sign after the mark makes a magnitude negative. -/
theorem Magnitude.sign_of_neg {sign : Option Char} (h : Magnitude marks sign cs v) (hv : v < 0) :
    sign = some '-' := by
  cases h with
  | decimal h => omega
  | hexadecimal hmark h =>
    cases h with
    | bare h => omega
    | plus h => omega
    | minus h => rfl

/-! ## The readers -/

theorem afterMark?_eq_some_iff {rest : List Char} :
    afterMark? marks cs = some rest ↔ ∃ mark ∈ marks, cs = '0' :: mark :: rest := by
  unfold afterMark?
  split
  · rename_i mark tail
    split
    · rename_i hmark
      constructor
      · intro h
        exact ⟨mark, hmark, Option.some.inj h ▸ rfl⟩
      · rintro ⟨m, -, heq⟩
        cases heq
        rfl
    · rename_i hmark
      simp only [reduceCtorEq, false_iff]
      rintro ⟨m, hm, heq⟩
      cases heq
      exact hmark hm
  · rename_i hother
    simp only [reduceCtorEq, false_iff]
    rintro ⟨m, -, heq⟩
    exact hother m rest heq

/-- **What is read after the sign.** A mark is no decimal digit, so a text has one reading. -/
theorem magnitude?_eq_some_iff (hmarks : ∀ mark ∈ marks, digitValue? 10 mark = none) :
    magnitude? marks cs = some v ↔
      (∃ sign, Magnitude marks sign cs v) ∧ Bits.inInt128 v = true := by
  rw [magnitude?, Option.filter_eq_some_iff, and_congr_left_iff]
  intro _
  split
  · rename_i hex hafter
    obtain ⟨mark, hmark, rfl⟩ := afterMark?_eq_some_iff.mp hafter
    rw [intOfDigits?_eq_some_iff (by decide)]
    constructor
    · rintro ⟨sign, h⟩
      exact ⟨sign, .hexadecimal hmark h⟩
    · rintro ⟨sign, h⟩
      cases h with
      | decimal h =>
        exact absurd (List.mem_cons_of_mem _ List.mem_cons_self)
          (h.not_mem (by decide) (hmarks mark hmark))
      | hexadecimal _ h => exact ⟨sign, h⟩
  · rename_i hafter
    constructor
    · intro h
      obtain ⟨n, hn, rfl⟩ := Option.map_eq_some_iff.mp h
      exact ⟨none, .decimal ((natOfDigits?_eq_some_iff (by decide)).mp hn)⟩
    · rintro ⟨sign, h⟩
      cases h with
      | @decimal _ n h =>
        exact Option.map_eq_some_iff.mpr ⟨n, (natOfDigits?_eq_some_iff (by decide)).mpr h, rfl⟩
      | hexadecimal hmark h => cases hafter.symm.trans (afterMark?_eq_some_iff.mpr ⟨_, hmark, rfl⟩)

/-- A negation that leaves 128 bits comes out as the least number there is. -/
theorem neg_of_wrap128_neg {m : Int} (hm : Bits.inInt128 m = true) (hwrap : Bits.wrap128 (-m) = v)
    (hv : -(2 ^ 127 : Int) < v) : -m = v := by
  simp only [Bits.inInt128, Bool.and_eq_true, decide_eq_true_eq] at hm
  rcases Int.lt_or_eq_of_le hm.1 with hlo | rfl
  · rw [← hwrap, Bits.wrap128_eq_self (by omega) (by omega)]
  · subst hwrap
    exact absurd hv (by decide)

/-- **A reader of integers takes the texts of the grammar whose number is in its range**, if the
range leaves out the least number of 128 bits. -/
theorem integer?_eq_some_iff {inRange : Int → Bool}
    (hmarks : ∀ mark ∈ marks, digitValue? 10 mark = none)
    (hrange : ∀ v, inRange v = true → -(2 ^ 127 : Int) < v ∧ v < 2 ^ 127) :
    integer? marks inRange cs = some v ↔ (∃ sign, Spells marks sign cs v) ∧ inRange v = true := by
  unfold integer?
  rw [Option.filter_eq_some_iff, and_congr_left_iff]
  intro hv
  obtain ⟨hlo, hhi⟩ := hrange v hv
  split
  · rename_i digits
    rw [Option.map_eq_some_iff]
    constructor
    · rintro ⟨m, hm, hwrap⟩
      obtain ⟨⟨sign, hm⟩, hfits⟩ := (magnitude?_eq_some_iff hmarks).mp hm
      obtain rfl : -m = v := neg_of_wrap128_neg hfits hwrap hlo
      exact ⟨sign, .minus hm⟩
    · rintro ⟨sign, h⟩
      cases h with
      | plain h => exact absurd h not_magnitude_minus
      | @minus _ m h =>
        have hfits : Bits.inInt128 m = true := by
          simp only [Bits.inInt128, Bool.and_eq_true, decide_eq_true_eq]
          omega
        exact ⟨m, (magnitude?_eq_some_iff hmarks).mpr ⟨⟨sign, h⟩, hfits⟩,
          Bits.wrap128_eq_self (by omega) (by omega)⟩
  · rename_i hplain
    rw [magnitude?_eq_some_iff hmarks]
    have hfits : Bits.inInt128 v = true := by
      simp only [Bits.inInt128, Bool.and_eq_true, decide_eq_true_eq]
      omega
    constructor
    · rintro ⟨⟨sign, h⟩, -⟩
      exact ⟨sign, .plain h⟩
    · rintro ⟨sign, h⟩
      cases h with
      | plain h => exact ⟨⟨sign, h⟩, hfits⟩
      | minus h => exact absurd rfl (hplain _)

/-- The number after a minus sign has no negation of 128 bits exactly if it is the least one, with a
sign of its own. -/
theorem neg_overflows_iff (hmarks : ∀ mark ∈ marks, digitValue? 10 mark = none) :
    (∃ m, magnitude? marks cs = some m ∧ Bits.inInt128 (-m) = false) ↔
      Magnitude marks (some '-') cs (-2 ^ 127) := by
  constructor
  · rintro ⟨m, hm, hover⟩
    obtain ⟨⟨sign, hm⟩, hfits⟩ := (magnitude?_eq_some_iff hmarks).mp hm
    simp only [Bits.inInt128, Bool.and_eq_true, decide_eq_true_eq] at hfits
    simp only [Bits.inInt128, Bool.and_eq_false_iff, decide_eq_false_iff_not] at hover
    obtain rfl : m = -2 ^ 127 := by omega
    exact hm.sign_of_neg (by decide) ▸ hm
  · intro h
    exact ⟨_, (magnitude?_eq_some_iff hmarks).mpr ⟨⟨_, h⟩, by decide⟩, by decide⟩

/-- The marks are no decimal digits. -/
theorem digitValue?_mark {mark : Char} (h : mark = 'x' ∨ mark = 'X') :
    digitValue? 10 mark = none := by
  rcases h with rfl | rfl <;> rfl

theorem immediate?_eq_some_iff {text : String} :
    Assembly.immediate? text = some v ↔
      (∃ sign, Spells ['x', 'X'] sign text.toList v) ∧ Bits.inInt64 v = true := by
  refine integer?_eq_some_iff (fun _ h => digitValue?_mark (List.mem_pair.mp h)) fun w hw => ?_
  simp only [Bits.inInt64, Bool.and_eq_true, decide_eq_true_eq] at hw
  omega

theorem literal?_eq_some_iff {text : String} :
    Sexp.literal? text = some v ↔
      (∃ sign, Spells ['x'] sign text.toList v) ∧ Bits.fitsSigned v 65 = true := by
  refine integer?_eq_some_iff (fun _ h => digitValue?_mark (.inl (List.mem_singleton.mp h)))
    fun w hw => ?_
  have hbounds : -2 ^ 64 ≤ w ∧ w < 2 ^ 64 := by simpa [Bits.fitsSigned] using hw
  omega

end

/-- **Immediates and literals are the texts of the grammar**, in the range of 64 and of 65 bits, and
the number in them can be negated unless it is written as the least one of 128 bits. -/
theorem read_iff_spelled (text : String) (v : Int) :
    (Assembly.immediate? text = some v ↔
      (∃ sign, Spells ['x', 'X'] sign text.toList v) ∧ -2 ^ 63 ≤ v ∧ v < 2 ^ 63) ∧
    (Sexp.literal? text = some v ↔
      (∃ sign, Spells ['x'] sign text.toList v) ∧ -2 ^ 64 ≤ v ∧ v < 2 ^ 64) ∧
    ∀ marks ∈ [['x', 'X'], ['x']], ∀ digits,
      (∃ m, magnitude? marks digits = some m ∧ Bits.inInt128 (-m) = false) ↔
        Magnitude marks (some '-') digits (-2 ^ 127) := by
  refine ⟨?_, ?_, fun marks hmarks digits => neg_overflows_iff fun mark hmark => ?_⟩
  · rw [immediate?_eq_some_iff, Bits.inInt64, Bool.and_eq_true, decide_eq_true_eq,
      decide_eq_true_eq]
  · rw [literal?_eq_some_iff]
    simp [Bits.fitsSigned]
  · rcases List.mem_pair.mp hmarks with rfl | rfl
    · exact digitValue?_mark (List.mem_pair.mp hmark)
    · exact digitValue?_mark (.inl (List.mem_singleton.mp hmark))

/-- A sign after the mark is read, by both readers, and the least number of 128 bits can be written
with it. -/
theorem sign_after_mark_read :
    Assembly.immediate? "0x-5" = some (-5) ∧ Sexp.literal? "0x-5" = some (-5) ∧
      (∀ v, ¬Spells ['x', 'X'] none "0x-5".toList v) ∧
      magnitude? ['x'] "0x-80000000000000000000000000000000".toList = some (-2 ^ 127) ∧
      Bits.inInt128 (- -2 ^ 127) = false := by
  refine ⟨by decide +kernel, by decide +kernel, ?_, by decide +kernel, by decide⟩
  intro v h
  cases h with
  | plain h =>
    cases h with
    | decimal h => exact h.not_mem (by decide) rfl (List.mem_cons_of_mem _ List.mem_cons_self)
    | hexadecimal hmark h =>
      cases h with
      | bare h => exact h.not_mem (by decide) rfl List.mem_cons_self

end CustomIsa.Text
