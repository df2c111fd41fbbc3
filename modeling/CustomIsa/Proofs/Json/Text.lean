import Mathlib.Data.List.TakeDrop
import CustomIsa.Json.Basic
import CustomIsa.Json.Reader
import CustomIsa.Proofs.Text.Numeral
/-! # Printed JSON is read back

The reader undoes the printer. A string is read back character by character, whichever way each one
was escaped; a number is read back up to the character after it, which is no digit, point or
exponent; and an array or object is read back from its items, since the layout puts only blanks
between them. So a value of natural numbers, readable strings, arrays and objects is read back from
its text over several lines (`Json.read?_pretty`). -/
namespace CustomIsa.Json

/-! ## Strings -/

/-- A character as it is read back: by the number of its code unit if it was written so. -/
def pieceOf (c : Char) : Piece :=
  match escape c with
  | '\\' :: 'u' :: _ => .unit c.toNat
  | _ => .char c

/-- How a character is written and read: by a short escape, by its number, or plain. -/
theorem escape_cases (c : Char) :
    (∃ e, escape c = ['\\', e] ∧ e ≠ 'u' ∧ shortEscape? e = some c ∧ pieceOf c = .char c) ∨
      (escape c = '\\' :: 'u' :: (Text.hexPadded 4 c.toNat).toList ∧ c.toNat < 0x20 ∧
        pieceOf c = .unit c.toNat) ∨
      (escape c = [c] ∧ (c ≠ '"' ∧ c ≠ '\\' ∧ 0x20 ≤ c.toNat) ∧ pieceOf c = .char c) := by
  by_cases hshort : c ∈ ['"', '\\', '\x08', '\x0c', '\n', '\r', '\t']
  · left
    simp only [List.mem_cons, List.not_mem_nil, or_false] at hshort
    rcases hshort with rfl | rfl | rfl | rfl | rfl | rfl | rfl <;>
      exact ⟨_, rfl, by decide, rfl, rfl⟩
  · right
    simp only [List.mem_cons, List.not_mem_nil, or_false, not_or] at hshort
    obtain ⟨hquote, hslash, hb, hf, hn, hr, ht⟩ := hshort
    rw [pieceOf, escape, if_neg hquote, if_neg hslash, if_neg hb, if_neg hf, if_neg hn, if_neg hr,
      if_neg ht]
    by_cases hc : c.toNat < 0x20
    · rw [if_pos hc]
      exact .inl ⟨rfl, hc, rfl⟩
    · rw [if_neg hc]
      refine .inr ⟨rfl, ⟨hquote, hslash, by omega⟩, ?_⟩
      split
      · rename_i heq
        exact absurd (List.cons.inj heq).1 hslash
      · rfl

theorem hex4_hexPadded {n : Nat} (h : n < 0x20) :
    ∃ a b c d, (Text.hexPadded 4 n).toList = [a, b, c, d] ∧ hex4 a b c d = some n := by
  have hlength : (Text.hexPadded 4 n).toList.length = 4 :=
    Text.length_hexPadded (by decide) (by omega)
  match htext : (Text.hexPadded 4 n).toList, hlength with
  | [a, b, c, d], _ =>
    refine ⟨a, b, c, d, rfl, ?_⟩
    rw [hex4, Text.natOfDigits?, if_neg (List.cons_ne_nil _ _), ← htext]
    exact Text.digitsFrom_hexPadded 4 n

/-- A written character is read as one piece. -/
theorem readPieces_escape (c : Char) {cs rest : List Char} {ps : List Piece}
    (h : readPieces cs = some (ps, rest)) :
    readPieces (escape c ++ cs) = some (pieceOf c :: ps, rest) := by
  rcases escape_cases c with ⟨e, hescape, hu, hshort, hpiece⟩ | ⟨hescape, hlow, hpiece⟩ |
    ⟨hescape, ⟨hquote, hslash, hlow⟩, hpiece⟩
  · rw [hescape, hpiece]
    show readPieces ('\\' :: e :: cs) = _
    rw [readPieces, hshort, h]
    · rfl
    · exact fun _ _ _ _ _ he _ => hu he
  · obtain ⟨a, b, c', d, hdigits, hcode⟩ := hex4_hexPadded hlow
    rw [hescape, hdigits, hpiece]
    show readPieces ('\\' :: 'u' :: a :: b :: c' :: d :: cs) = _
    rw [readPieces, hcode, h]
    rfl
  · rw [hescape, hpiece]
    show readPieces (c :: cs) = _
    rw [readPieces, if_neg (by simp only [hslash, or_false]; omega), h]
    · rfl
    · exact hquote
    · exact fun _ _ _ _ _ hc _ => hslash hc
    · exact fun _ _ hc _ => hslash hc

theorem readPieces_flatMap_escape (cs rest : List Char) :
    readPieces (cs.flatMap escape ++ '"' :: rest) = some (cs.map pieceOf, rest) := by
  induction cs with
  | nil => rfl
  | cons c cs ih =>
    rw [List.flatMap_cons, List.append_assoc]
    exact readPieces_escape c ih

/-- A code unit that is no half of a surrogate pair spells its character, whatever follows. -/
theorem contentOf_unit {code : Nat} (h : code < 0xD800) {ps : List Piece} {cs : List Char}
    (hps : contentOf ps = some cs) :
    contentOf (.unit code :: ps) = some (Char.ofNat code :: cs) := by
  have hhigh : isHighHalf code = false := by
    rw [isHighHalf, Bool.and_eq_false_iff, decide_eq_false_iff_not]
    omega
  have hlow : isLowHalf code = false := by
    rw [isLowHalf, Bool.and_eq_false_iff, decide_eq_false_iff_not]
    omega
  cases ps with
  | nil =>
    obtain rfl := Option.some.inj hps
    rw [contentOf, hhigh, hlow]
    rfl
  | cons p ps =>
    cases p with
    | char c =>
      obtain ⟨ds, hds, rfl⟩ := Option.map_eq_some_iff.mp hps
      rw [contentOf, hhigh, hlow, hds]
      rfl
    | unit next =>
      rw [contentOf, hhigh, hlow, hps]
      rfl

/-- **The pieces of a written string spell it.** -/
theorem contentOf_map_pieceOf (cs : List Char) : contentOf (cs.map pieceOf) = some cs := by
  induction cs with
  | nil => rfl
  | cons c cs ih =>
    rw [List.map_cons]
    rcases escape_cases c with ⟨-, -, -, -, hpiece⟩ | ⟨-, hlow, hpiece⟩ | ⟨-, -, hpiece⟩
    · rw [hpiece, contentOf, ih]
      rfl
    · rw [hpiece, contentOf_unit (by omega) ih, Char.ofNat_toNat]
    · rw [hpiece, contentOf, ih]
      rfl

/-- A written string is read back. -/
theorem readString_quoted (s : String) (rest : List Char) :
    ∃ cs, (quoted (some s)).toList ++ rest = '"' :: cs ∧ readString cs = some (some s, rest) := by
  refine ⟨s.toList.flatMap escape ++ '"' :: rest, ?_, ?_⟩
  · simp [quoted]
  · rw [readString, readPieces_flatMap_escape]
    simp only [Option.map_some, contentOf_map_pieceOf, String.ofList_toList]

/-! ## Numbers -/

/-- The text ends, or goes on with a comma or a line break. -/
def Closed (rest : List Char) : Prop := ∀ c ∈ rest.head?, c = ',' ∨ c = '\n'

theorem Closed.cases {rest : List Char} (h : Closed rest) :
    rest = [] ∨ (∃ cs, rest = ',' :: cs) ∨ ∃ cs, rest = '\n' :: cs := by
  cases rest with
  | nil => exact .inl rfl
  | cons c cs =>
    rcases h c rfl with rfl | rfl
    · exact .inr (.inl ⟨cs, rfl⟩)
    · exact .inr (.inr ⟨cs, rfl⟩)

/-- What follows a number is no part of it. -/
theorem Closed.number_ends {rest : List Char} (h : Closed rest) :
    rest.takeWhile (Text.isDigitOf 10) = [] ∧ rest.dropWhile (Text.isDigitOf 10) = rest ∧
      fractionPart rest = some ([], rest) ∧ exponentPart rest = some ([], rest) := by
  rcases h.cases with rfl | ⟨cs, rfl⟩ | ⟨cs, rfl⟩ <;> exact ⟨rfl, rfl, rfl, rfl⟩

theorem toDigits_eq_cons (n : Nat) :
    ∃ c cs, Nat.toDigits 10 n = c :: cs ∧ Text.isDigitOf 10 c = true := by
  have hdigits : ∀ c ∈ Nat.toDigits 10 n, Text.isDigitOf 10 c = true :=
    fun _ hc => Text.isDigitOf_of_mem_toDigits (by decide) (by decide) hc
  cases hcs : Nat.toDigits 10 n with
  | nil => exact absurd hcs Nat.toDigits_ne_nil
  | cons c cs => exact ⟨c, cs, rfl, hdigits c (hcs ▸ List.mem_cons_self)⟩

theorem head_toDigits_ne_zero {n : Nat} (h : n ≠ 0) : (Nat.toDigits 10 n).head? ≠ some '0' := by
  induction n using Nat.strongRecOn with
  | ind n ih =>
    rw [Nat.toDigits_eq_if (by decide)]
    split
    · rename_i hlt
      have hdigit : ∀ d < 10, d ≠ 0 → Nat.digitChar d ≠ '0' := by decide
      exact fun heq => hdigit n hlt h (Option.some.inj heq)
    · have hdiv : n / 10 ≠ 0 := by omega
      have hhead := ih (n / 10) (by omega) hdiv
      cases hdigits : Nat.toDigits 10 (n / 10) with
      | nil => exact absurd hdigits Nat.toDigits_ne_nil
      | cons c cs =>
        rw [hdigits] at hhead
        exact hhead

/-- The digits of a number are its whole part: zero stands alone, and no other starts with it. -/
theorem wholePart_toDigits (n : Nat) {rest : List Char} (h : Closed rest) :
    wholePart (Nat.toDigits 10 n ++ rest) = some (Nat.toDigits 10 n, rest) := by
  by_cases hzero : n = 0
  · subst hzero
    rfl
  have hdigits : ∀ c ∈ Nat.toDigits 10 n, Text.isDigitOf 10 c = true :=
    fun _ hc => Text.isDigitOf_of_mem_toDigits (by decide) (by decide) hc
  have hspan : (Nat.toDigits 10 n ++ rest).span (Text.isDigitOf 10) =
      (Nat.toDigits 10 n, rest) := by
    rw [List.span_eq_takeWhile_dropWhile, List.takeWhile_append_of_pos hdigits,
      List.dropWhile_append_of_pos hdigits, h.number_ends.1, h.number_ends.2.1, List.append_nil]
  have hhead := head_toDigits_ne_zero hzero
  cases hcs : Nat.toDigits 10 n with
  | nil => exact absurd hcs Nat.toDigits_ne_nil
  | cons c cs =>
    rw [hcs] at hspan hhead
    rw [wholePart, digits1, hspan]
    intro ds heq
    exact hhead (congrArg some (List.cons.inj heq).1)

theorem readNumber_toDigits (n : Nat) {rest : List Char} (h : Closed rest) :
    readNumber (Nat.toDigits 10 n ++ rest) = some (Nat.toDigits 10 n, rest) := by
  have hwhole := wholePart_toDigits n h
  have hsign : ∀ cs, Nat.toDigits 10 n ++ rest ≠ '-' :: cs := by
    obtain ⟨c, ds, hds, hc⟩ := toDigits_eq_cons n
    rintro cs heq
    rw [hds] at heq
    obtain ⟨rfl, -⟩ := List.cons.inj heq
    cases hc
  unfold readNumber
  split
  rename_i sign cs heq
  split at heq
  · rename_i ds hminus
    exact absurd hminus (hsign ds)
  · obtain ⟨rfl, rfl⟩ := Prod.mk.inj heq
    rw [hwhole]
    simp [h.number_ends.2.2.1, h.number_ends.2.2.2]

/-! ## Values -/

/-- The text has only blanks. -/
def Gap (cs : List Char) : Prop := ∀ c ∈ cs, isGap c = true

theorem skipGap_append {gap : List Char} (h : Gap gap) (cs : List Char) :
    skipGap (gap ++ cs) = skipGap cs :=
  List.dropWhile_append_of_pos h

theorem skipGap_cons {c : Char} (h : isGap c = false) (cs : List Char) :
    skipGap (c :: cs) = c :: cs := by
  rw [skipGap, List.dropWhile_cons, h, if_neg Bool.false_ne_true]

/-- The blanks at the start of a line. -/
def lineStart (depth : Nat) : List Char := '\n' :: (indent depth).toList

theorem gap_lineStart (depth : Nat) : Gap (lineStart depth) := by
  intro c hc
  rcases List.mem_cons.mp hc with rfl | hc
  · rfl
  · rw [indent, String.toList_ofList] at hc
    rw [(List.mem_replicate.mp hc).2]
    rfl

/-- Blanks before a value do not matter. -/
theorem readValue_gap {gap : List Char} (h : Gap gap) (fuel : Nat) (cs : List Char) :
    readValue fuel (gap ++ cs) = readValue fuel cs := by
  cases fuel with
  | zero => rw [readValue_zero, readValue_zero]
  | succ fuel => rw [readValue, readValue, skipGap_append h]

/-- The value is read from its text, whatever follows. -/
def ReadBack (v : Json) : Prop :=
  ∀ depth fuel rest, 2 * (prettyAt depth v).toList.length < fuel → Closed rest →
    readValue fuel ((prettyAt depth v).toList ++ rest) = some (v, rest)

/-- A value that is read at its first character, one that is no blank, is read back. -/
theorem ReadBack.of_succ {v : Json}
    (h : ∀ depth fuel rest, 2 * (prettyAt depth v).toList.length ≤ fuel → Closed rest →
      readValue (fuel + 1) ((prettyAt depth v).toList ++ rest) = some (v, rest)) : ReadBack v := by
  intro depth fuel rest hfuel hrest
  cases fuel with
  | zero => omega
  | succ fuel => exact h depth fuel rest (by omega) hrest

theorem readBack_null : ReadBack .null := by
  refine .of_succ fun depth fuel rest _ _ => ?_
  rw [prettyAt_null]
  rfl

theorem readBack_bool (b : Bool) : ReadBack (.bool b) := by
  refine .of_succ fun depth fuel rest _ _ => ?_
  rw [prettyAt]
  cases b <;> rfl

theorem readBack_text (s : String) : ReadBack (text s) := by
  refine .of_succ fun depth fuel rest _ _ => ?_
  obtain ⟨cs, hquoted, hread⟩ := readString_quoted s rest
  rw [text, prettyAt, hquoted]
  show (readString cs).map _ = _
  rw [hread]
  rfl

theorem readBack_nat (n : Nat) : ReadBack (nat n) := by
  refine .of_succ fun depth fuel rest _ hrest => ?_
  have hnumber := readNumber_toDigits n hrest
  obtain ⟨c, ds, hds, hc⟩ := toDigits_eq_cons n
  have hgap : isGap c = false := by
    rw [Bool.eq_false_iff]
    intro hgap
    simp only [isGap, Bool.or_eq_true, beq_iff_eq] at hgap
    rcases hgap with ((rfl | rfl) | rfl) | rfl <;> cases hc
  rw [nat, prettyAt, Text.toList_natToString, readValue, hds, List.cons_append, skipGap_cons hgap]
  rw [hds, List.cons_append] at hnumber
  -- a digit starts no other kind of value
  split
  iterate 6
    · rename_i heq
      obtain ⟨rfl, -⟩ := List.cons.inj heq
      cases hc
  · rw [hnumber, ← hds, ← Text.toList_natToString]
    simp only [Option.map_some, String.ofList_toList]

/-! ## Arrays and objects -/

section
variable {fuel inner : Nat} {v : Json} {vs : List Json} {key : String}
  {ms : List (Option String × Json)} {cs cs' more rest : List Char}

theorem readItems_last (hv : readValue fuel cs = some (v, cs')) (hend : skipGap cs' = ']' :: rest) :
    readItems (fuel + 1) cs = some ([v], rest) := by
  rw [readItems, hv]
  simp [hend]

theorem readItems_more (hv : readValue fuel cs = some (v, cs')) (hcomma : skipGap cs' = ',' :: more)
    (hvs : readItems fuel more = some (vs, rest)) :
    readItems (fuel + 1) cs = some (v :: vs, rest) := by
  rw [readItems, hv]
  simp [hcomma, hvs]

/-- A member as it is written on a line of its own. -/
def memberText (inner : Nat) (key : String) (value : List Char) : List Char :=
  lineStart inner ++ ((quoted (some key)).toList ++ ':' :: ' ' :: value)

/-- The key of a member is read, and the blank before its value does not matter. -/
theorem read_memberText (inner : Nat) (key : String) (fuel : Nat) (cs : List Char) :
    ∃ after, skipGap (memberText inner key cs) = '"' :: after ∧
      readString after = some (some key, ':' :: ' ' :: cs) ∧
      readValue fuel (' ' :: cs) = readValue fuel cs := by
  obtain ⟨after, hquoted, hkey⟩ := readString_quoted key (':' :: ' ' :: cs)
  refine ⟨after, ?_, hkey, readValue_gap (List.forall_mem_singleton.mpr rfl) fuel cs⟩
  rw [memberText, skipGap_append (gap_lineStart inner), hquoted, skipGap_cons rfl]

theorem readMembers_last (inner : Nat) (key : String) (hv : readValue fuel cs = some (v, cs'))
    (hend : skipGap cs' = '\x7d' :: rest) :
    readMembers (fuel + 1) (memberText inner key cs) = some ([(some key, v)], rest) := by
  obtain ⟨after, hstart, hkey, hvalue⟩ := read_memberText inner key fuel cs
  rw [readMembers, hstart]
  simp [hkey, skipGap_cons (show isGap ':' = false from rfl), hvalue, hv, hend]

theorem readMembers_more (inner : Nat) (key : String) (hv : readValue fuel cs = some (v, cs'))
    (hcomma : skipGap cs' = ',' :: more) (hms : readMembers fuel more = some (ms, rest)) :
    readMembers (fuel + 1) (memberText inner key cs) = some ((some key, v) :: ms, rest) := by
  obtain ⟨after, hstart, hkey, hvalue⟩ := read_memberText inner key fuel cs
  rw [readMembers, hstart]
  simp [hkey, skipGap_cons (show isGap ':' = false from rfl), hvalue, hv, hcomma, hms]

/-- The end of an array or object, on a line of its own. -/
def ending (depth : Nat) (bracket : Char) (rest : List Char) : List Char :=
  lineStart depth ++ bracket :: rest

theorem closed_ending (depth : Nat) (bracket : Char) : Closed (ending depth bracket rest) := by
  intro c hc
  exact .inr (Option.some.inj hc).symm

theorem skipGap_ending {depth : Nat} {bracket : Char} (h : isGap bracket = false) :
    skipGap (ending depth bracket rest) = bracket :: rest := by
  rw [ending, skipGap_append (gap_lineStart depth), skipGap_cons h]

theorem closed_comma (cs : List Char) : Closed (',' :: cs) := by
  intro c hc
  exact .inl (Option.some.inj hc).symm

/-- Items that are read back are read one after another up to the closing bracket. -/
theorem readItems_prettyItems (depth : Nat) (h : ∀ u ∈ v :: vs, ReadBack u)
    (hfuel : 2 * ((prettyAt inner v).toList.length + (prettyItems inner vs).toList.length) + 1 <
      fuel) :
    readItems fuel (lineStart inner ++ ((prettyAt inner v).toList ++
      ((prettyItems inner vs).toList ++ ending depth ']' rest))) = some (v :: vs, rest) := by
  obtain ⟨hv, hvs⟩ := List.forall_mem_cons.mp h
  induction vs generalizing v fuel with
  | nil =>
    obtain ⟨fuel, rfl⟩ : ∃ n, fuel = n + 1 := ⟨fuel - 1, by omega⟩
    have hread := hv inner fuel (ending depth ']' rest) (by omega) (closed_ending depth ']')
    rw [← readValue_gap (gap_lineStart inner)] at hread
    rw [prettyItems_nil]
    exact readItems_last hread (skipGap_ending rfl)
  | cons next vs ih =>
    obtain ⟨fuel, rfl⟩ : ∃ n, fuel = n + 1 := ⟨fuel - 1, by omega⟩
    have htext : (prettyItems inner (next :: vs)).toList = ',' :: (lineStart inner ++
        ((prettyAt inner next).toList ++ (prettyItems inner vs).toList)) := by
      simp [prettyItems, lineStart]
    rw [htext] at hfuel ⊢
    simp only [List.length_cons, List.length_append] at hfuel
    simp only [List.cons_append, List.append_assoc]
    have hread := hv inner fuel (',' :: (lineStart inner ++ ((prettyAt inner next).toList ++
      ((prettyItems inner vs).toList ++ ending depth ']' rest)))) (by omega) (closed_comma _)
    rw [← readValue_gap (gap_lineStart inner)] at hread
    obtain ⟨hnext, hrest⟩ := List.forall_mem_cons.mp hvs
    exact readItems_more hread (skipGap_cons rfl _) (ih hvs (by omega) hnext hrest)

/-- Members whose values are read back are read one after another up to the closing brace. -/
theorem readMembers_prettyMembers (depth : Nat) {members : List (String × Json)}
    (h : ∀ m ∈ (key, v) :: members, ReadBack m.2)
    (hfuel : 2 * ((prettyAt inner v).toList.length + (prettyMembers inner
      (members.map fun m => (some m.1, m.2))).toList.length) + 1 < fuel) :
    readMembers fuel (memberText inner key ((prettyAt inner v).toList ++
      ((prettyMembers inner (members.map fun m => (some m.1, m.2))).toList ++
        ending depth '\x7d' rest))) =
      some ((some key, v) :: members.map fun m => (some m.1, m.2), rest) := by
  obtain ⟨hv, hms⟩ : ReadBack v ∧ ∀ m ∈ members, ReadBack m.2 := List.forall_mem_cons.mp h
  induction members generalizing key v fuel with
  | nil =>
    obtain ⟨fuel, rfl⟩ : ∃ n, fuel = n + 1 := ⟨fuel - 1, by omega⟩
    have hread := hv inner fuel (ending depth '\x7d' rest) (by omega) (closed_ending depth '\x7d')
    rw [List.map_nil, prettyMembers_nil]
    exact readMembers_last inner key hread (skipGap_ending rfl)
  | cons next members ih =>
    obtain ⟨fuel, rfl⟩ : ∃ n, fuel = n + 1 := ⟨fuel - 1, by omega⟩
    have htext : (prettyMembers inner ((next :: members).map fun m => (some m.1, m.2))).toList =
        ',' :: memberText inner next.1 ((prettyAt inner next.2).toList ++
          (prettyMembers inner (members.map fun m => (some m.1, m.2))).toList) := by
      simp [prettyMembers, memberText, lineStart]
    rw [htext] at hfuel ⊢
    simp only [memberText, List.length_cons, List.length_append] at hfuel
    have hread := hv inner fuel (',' :: memberText inner next.1 ((prettyAt inner next.2).toList ++
      ((prettyMembers inner (members.map fun m => (some m.1, m.2))).toList ++
        ending depth '\x7d' rest))) (by omega) (closed_comma _)
    obtain ⟨hnext, hrest⟩ := List.forall_mem_cons.mp hms
    have hmore := readMembers_more inner key hread (skipGap_cons rfl _)
      (ih hms (by omega) hnext hrest)
    simpa only [memberText, List.map_cons, List.cons_append, List.append_assoc] using hmore

/-- A closing bracket starts no value. -/
theorem readValue_bracket (h : skipGap cs = ']' :: rest) : readValue fuel cs = none := by
  cases fuel with
  | zero => exact readValue_zero cs
  | succ fuel =>
    rw [readValue, h]
    rfl

/-- Items that are read are not taken for an empty array. -/
theorem readValue_array (h : readItems fuel cs = some (vs, rest)) :
    readValue (fuel + 1) ('[' :: cs) = some (.array vs, rest) := by
  rw [readValue, skipGap_cons rfl]
  simp only [h, Option.map_some]
  split
  · rename_i closing hclose
    cases fuel with
    | zero =>
      rw [readItems_zero] at h
      cases h
    | succ fuel =>
      rw [readItems, readValue_bracket hclose] at h
      cases h
  · rfl

theorem readValue_object (h : readMembers fuel cs = some (ms, rest)) :
    readValue (fuel + 1) ('\x7b' :: cs) = some (.object ms, rest) := by
  rw [readValue, skipGap_cons rfl]
  simp only [h, Option.map_some]
  split
  · rename_i closing hclose
    cases fuel with
    | zero =>
      rw [readMembers_zero] at h
      cases h
    | succ fuel =>
      rw [readMembers, hclose] at h
      cases h
  · rfl

end

theorem readBack_array {items : List Json} (h : ∀ v ∈ items, ReadBack v) :
    ReadBack (.array items) := by
  refine .of_succ fun depth fuel rest hfuel _ => ?_
  cases items with
  | nil =>
    rw [prettyAt]
    rfl
  | cons v vs =>
    have htext : (prettyAt depth (.array (v :: vs))).toList =
        '[' :: (lineStart (depth + 1) ++ ((prettyAt (depth + 1) v).toList ++
          ((prettyItems (depth + 1) vs).toList ++ ending depth ']' []))) := by
      simp [prettyAt, lineStart, ending]
    rw [htext] at hfuel ⊢
    simp only [ending, lineStart, List.length_cons, List.length_append] at hfuel
    refine readValue_array ?_
    simpa [ending] using readItems_prettyItems depth h (by omega)

theorem readBack_record {members : List (String × Json)} (h : ∀ m ∈ members, ReadBack m.2) :
    ReadBack (record members) := by
  refine .of_succ fun depth fuel rest hfuel _ => ?_
  cases members with
  | nil =>
    rw [record, List.map_nil, prettyAt]
    rfl
  | cons m members =>
    have htext : (prettyAt depth (record (m :: members))).toList =
        '\x7b' :: memberText (depth + 1) m.1 ((prettyAt (depth + 1) m.2).toList ++
          ((prettyMembers (depth + 1) (members.map fun m => (some m.1, m.2))).toList ++
            ending depth '\x7d' [])) := by
      simp [record, prettyAt, memberText, lineStart, ending]
    rw [htext] at hfuel ⊢
    simp only [memberText, ending, lineStart, List.length_cons, List.length_append] at hfuel
    refine readValue_object ?_
    simpa [ending, memberText] using readMembers_prettyMembers depth h (by omega)

/-- The values that are built from texts, natural numbers and records whose keys are texts. -/
inductive Writable : Json → Prop
  | null : Writable .null
  | bool (b : Bool) : Writable (.bool b)
  | nat (n : Nat) : Writable (nat n)
  | text (s : String) : Writable (text s)
  | array {items : List Json} (h : ∀ v ∈ items, Writable v) : Writable (.array items)
  | record {members : List (String × Json)} (h : ∀ m ∈ members, Writable m.2) :
    Writable (record members)

theorem Writable.readBack {v : Json} (h : Writable v) : ReadBack v := by
  induction h with
  | null => exact readBack_null
  | bool b => exact readBack_bool b
  | nat n => exact readBack_nat n
  | text s => exact readBack_text s
  | array _ ih => exact readBack_array ih
  | record _ ih => exact readBack_record ih

/-- The text of a value denotes that value. -/
theorem read?_pretty {v : Json} (h : Writable v) : read? v.pretty = some v := by
  have hread := h.readBack 0 (2 * v.pretty.toList.length + 2) [] (by rw [pretty]; omega)
    (fun c hc => nomatch hc)
  rw [List.append_nil] at hread
  rw [← pretty] at hread
  simp [read?, hread, skipGap]

end CustomIsa.Json
