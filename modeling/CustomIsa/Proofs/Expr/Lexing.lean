import Mathlib.Data.Nat.Find
import CustomIsa.Expr.Lexer
import CustomIsa.Proofs.Foundations
import CustomIsa.Proofs.Text.Numeral
/-! # Cutting text at the longest token

A token text (`Expr.TokenText`) is a word, a literal or a symbol. A text is cut into lexemes
(`Expr.Lexes`) by leaving out spaces and by taking, at every other place, the longest token text
that stands there. A literal whose digits denote no number that fits is a token text too, but stands
for no lexeme, so a text with such a literal cannot be cut. The lexer does just that
(`Expr.lexes_iff`). -/
namespace CustomIsa.Expr

/-- What may stand before the digits of a literal, by its base. -/
inductive BaseMark : Nat → List Char → Prop
  | decimal : BaseMark 10 []
  | lower : BaseMark 16 ['0', 'x']
  | upper : BaseMark 16 ['0', 'X']

/-- The texts of tokens, with the lexemes they stand for. -/
inductive TokenText : List Char → Option Lexeme → Prop
  | word {c : Char} {more : List Char} (hc : startsWord c = true)
    (hmore : ∀ d ∈ more, inWord d = true) :
    TokenText (c :: more) (some (.word (String.ofList (c :: more))))
  | literal {base : Nat} {mark digits suffix : List Char} (hmark : BaseMark base mark)
    (hdigits : ∀ d ∈ digits, Text.isDigitOf base d = true)
    (hsuffix : ∀ c ∈ suffix, inSuffix c = true) (hne : mark ++ digits ≠ []) :
    TokenText (mark ++ digits ++ suffix) (literal base digits suffix).toOption
  | symbol (s : Symbol) : TokenText s.text.toList (some (.symbol s))

/-- No token text at the start of the text is longer than the given length. -/
def NoLonger (n : Nat) (text : List Char) : Prop :=
  ∀ w rest o, TokenText w o → w ++ rest = text → w.length ≤ n

/-- The text is cut into the lexemes, at each place by its longest token. -/
inductive Lexes : List Char → List Lexeme → Prop
  | done : Lexes [] []
  | space {c : Char} {cs : List Char} {ls : List Lexeme} (hc : isSpace c = true)
    (h : Lexes cs ls) : Lexes (c :: cs) ls
  | token {w cs : List Char} {l : Lexeme} {ls : List Lexeme} (hw : TokenText w (some l))
    (hlongest : NoLonger w.length (w ++ cs)) (h : Lexes cs ls) : Lexes (w ++ cs) (l :: ls)

/-! ## Classes of characters -/

theorem isSpace_of_inWord {c : Char} (h : inWord c = true) : isSpace c = false := by
  by_contra hspace
  rw [Bool.not_eq_false] at hspace
  simp only [isSpace, Bool.or_eq_true, decide_eq_true_eq] at hspace
  rcases hspace with (((rfl | rfl) | rfl) | rfl) | rfl <;> cases h

theorem inWord_of_startsWord {c : Char} (h : startsWord c = true) : inWord c = true := by
  simp only [startsWord, Bool.or_eq_true] at h
  rcases h with h | h <;> simp [inWord, Char.isAlphanum, h]

theorem inWord_of_isDigit {c : Char} (h : c.isDigit = true) : inWord c = true := by
  simp [inWord, Char.isAlphanum, h]

theorem not_startsWord_of_isDigit {c : Char} (h : c.isDigit = true) : ¬startsWord c = true := by
  have hrange : 48 ≤ c.toNat ∧ c.toNat ≤ 57 := by
    simpa [Char.isDigit, UInt32.le_iff_toNat_le] using h
  intro hstart
  rw [startsWord, Bool.or_eq_true] at hstart
  rcases hstart with hletter | hmark
  · rcases (Bool.or_eq_true _ _).mp hletter with hupper | hlower
    · have hfrom : (65 : UInt32) ≤ c.val := (of_decide_eq_true hupper).1
      have hbound : 65 ≤ c.toNat := UInt32.le_iff_toNat_le.mp hfrom
      omega
    · have hfrom : (97 : UInt32) ≤ c.val := of_decide_eq_true ((Bool.and_eq_true _ _).mp hlower).1
      have hbound : 97 ≤ c.toNat := UInt32.le_iff_toNat_le.mp hfrom
      omega
  · obtain rfl := of_decide_eq_true hmark
    cases h

theorem not_isDigitOf_of_inSuffix {base : Nat} {mark : List Char} (hmark : BaseMark base mark)
    {c : Char} (h : inSuffix c = true) : Text.isDigitOf base c = false := by
  simp only [inSuffix, Bool.or_eq_true, decide_eq_true_eq] at h
  cases hmark <;> rcases h with ((rfl | rfl) | rfl) | rfl <;> rfl

/-- A run of characters of one class ends where the class does. -/
theorem takeWhile_append_of_stop {p : Char → Bool} {xs ys : List Char}
    (hxs : ∀ c ∈ xs, p c = true) (hys : ∀ c cs, ys = c :: cs → p c = false) :
    (xs ++ ys).takeWhile p = xs := by
  have hstop : ys.takeWhile p = [] := by
    cases ys with
    | nil => rfl
    | cons c cs => rw [List.takeWhile_cons, hys c cs rfl, if_neg Bool.false_ne_true]
  rw [List.takeWhile_append_of_pos hxs, hstop, List.append_nil]

theorem forall_mem_concat {p : Char → Bool} {xs : List Char} {d : Char}
    (hxs : ∀ c ∈ xs, p c = true) (hd : ¬p d = false) : ∀ c ∈ xs ++ [d], p c = true :=
  List.forall_mem_append.mpr
    ⟨hxs, List.forall_mem_singleton.mpr (Bool.eq_true_of_not_eq_false hd)⟩

/-! ## The longest token is scanned -/

section
variable {c : Char} {rest cs : List Char}

/-- The next character does not extend the longest token text. -/
theorem NoLonger.not_tokenText {w ds : List Char} {d : Char}
    (h : NoLonger w.length (w ++ d :: ds)) (o : Option Lexeme) : ¬TokenText (w ++ [d]) o := by
  intro hlonger
  have hle := h (w ++ [d]) ds o hlonger (by simp)
  simp at hle

theorem scan_word {more : List Char} (hc : startsWord c = true)
    (hmore : ∀ d ∈ more, inWord d = true)
    (hlongest : NoLonger (c :: more).length (c :: more ++ cs)) :
    scan c (more ++ cs) = .ok (.word (String.ofList (c :: more)), more.length) := by
  have hstop : ∀ d ds, cs = d :: ds → inWord d = false := by
    rintro d ds rfl
    by_contra hd
    exact hlongest.not_tokenText _ (.word hc (forall_mem_concat hmore hd))
  rw [scan, if_pos hc, takeWhile_append_of_stop hmore hstop]

section
variable {base : Nat} {mark digits suffix : List Char}

/-- A mark alone is a token text, though it denotes no number. -/
theorem tokenText_mark {x : Char} (hx : x = 'x' ∨ x = 'X') :
    TokenText ['0', x] (literal 16 [] []).toOption := by
  have hnone : ∀ p : Char → Bool, ∀ d ∈ [], p d = true := fun _ _ h => (nomatch h)
  rcases hx with rfl | rfl
  · exact .literal .lower (hnone _) (hnone _) (List.cons_ne_nil _ _)
  · exact .literal .upper (hnone _) (hnone _) (List.cons_ne_nil _ _)

theorem scan_marked {x : Char} (hx : x = 'x' ∨ x = 'X')
    (hdigits : (digits ++ (suffix ++ cs)).takeWhile (Text.isDigitOf 16) = digits)
    (hsuffix : (suffix ++ cs).takeWhile inSuffix = suffix) :
    scan '0' (x :: (digits ++ (suffix ++ cs))) =
      (literal 16 digits suffix).map (·, (digits ++ suffix).length + 1) := by
  have hdrop : ('0' :: x :: (digits ++ (suffix ++ cs))).drop (2 + digits.length) =
      suffix ++ cs := by
    rw [Nat.add_comm, List.drop_succ_cons, List.drop_succ_cons, List.drop_left]
  have hlength : 2 + digits.length + suffix.length - 1 = (digits ++ suffix).length + 1 := by
    rw [List.length_append]
    omega
  rw [scan, if_neg (by decide), if_pos (by decide), ← hlength]
  unfold scanLiteral
  rcases hx with rfl | rfl <;> simp only [hdigits, hdrop, hsuffix]

theorem scan_unmarked (hdigit : c.isDigit = true)
    (hplain : ∀ x t, rest = x :: t → x = 'x' ∨ x = 'X' → c ≠ '0')
    (heq : c :: rest = digits ++ (suffix ++ cs))
    (hdigits : (digits ++ (suffix ++ cs)).takeWhile (Text.isDigitOf 10) = digits)
    (hsuffix : (suffix ++ cs).takeWhile inSuffix = suffix) :
    scan c rest = (literal 10 digits suffix).map (·, (digits ++ suffix).length - 1) := by
  rw [scan, if_neg (not_startsWord_of_isDigit hdigit), if_pos hdigit]
  unfold scanLiteral
  split
  rename_i base mark ds hmatch
  split at hmatch
  · exact absurd rfl (hplain 'x' _ rfl (.inl rfl))
  · exact absurd rfl (hplain 'X' _ rfl (.inr rfl))
  · obtain ⟨rfl, hpair⟩ := Prod.mk.inj hmatch
    obtain ⟨rfl, rfl⟩ := Prod.mk.inj hpair
    simp only [heq, hdigits, Nat.zero_add, List.drop_left, hsuffix, List.length_append]

variable (hmark : BaseMark base mark)
  (hdigits : ∀ d ∈ digits, Text.isDigitOf base d = true)
  (hsuffix : ∀ d ∈ suffix, inSuffix d = true)
  (hlongest : NoLonger (mark ++ digits ++ suffix).length (mark ++ digits ++ suffix ++ cs))
include hmark hdigits hsuffix hlongest

/-- The digits of the longest literal end where their class does. -/
theorem takeWhile_digits :
    (digits ++ (suffix ++ cs)).takeWhile (Text.isDigitOf base) = digits := by
  refine takeWhile_append_of_stop hdigits fun d ds hd => ?_
  cases suffix with
  | nil =>
    obtain rfl : cs = d :: ds := hd
    by_contra hdigit
    rw [List.append_nil] at hlongest
    refine hlongest.not_tokenText (literal base (digits ++ [d]) []).toOption ?_
    have hlonger := TokenText.literal hmark (forall_mem_concat hdigits hdigit) hsuffix (by simp)
    rwa [List.append_nil, ← List.append_assoc] at hlonger
  | cons x suffix =>
    obtain ⟨rfl, -⟩ := List.cons.inj hd
    exact not_isDigitOf_of_inSuffix hmark (hsuffix x List.mem_cons_self)

/-- The suffix of the longest literal ends where its class does. -/
theorem takeWhile_suffix (hne : mark ++ digits ≠ []) :
    (suffix ++ cs).takeWhile inSuffix = suffix := by
  refine takeWhile_append_of_stop hsuffix fun d ds hd => ?_
  subst hd
  by_contra hd
  refine hlongest.not_tokenText (literal base digits (suffix ++ [d])).toOption ?_
  have hlonger := TokenText.literal hmark hdigits (forall_mem_concat hsuffix hd) hne
  rwa [← List.append_assoc] at hlonger

/-- The literal is scanned with its base, its digits and its suffix. -/
theorem scan_literal (hne : mark ++ digits ≠ [])
    (heq : c :: rest = mark ++ (digits ++ (suffix ++ cs))) :
    scan c rest = (literal base digits suffix).map (·, (mark ++ digits ++ suffix).length - 1) := by
  have htake := takeWhile_digits hmark hdigits hsuffix hlongest
  have hend := takeWhile_suffix hmark hdigits hsuffix hlongest hne
  cases hmark with
  | decimal =>
    obtain ⟨d, ds, rfl⟩ := List.exists_cons_of_ne_nil hne
    obtain ⟨rfl, hrest⟩ := List.cons.inj heq
    have hdigit : c.isDigit = true := Text.isDigitOf_ten c ▸ hdigits c List.mem_cons_self
    refine scan_unmarked hdigit ?_ heq htake hend
    -- a zero before the mark of another base would not be the longest literal
    rintro x t rfl hx rfl
    have hnone : Text.isDigitOf 10 x = false ∧ inSuffix x = false := by
      rcases hx with rfl | rfl <;> exact ⟨rfl, rfl⟩
    cases ds with
    | cons d ds =>
      obtain ⟨rfl, -⟩ := List.cons.inj hrest
      rw [hdigits x (by simp)] at hnone
      cases hnone.1
    | nil =>
      cases suffix with
      | cons y suffix =>
        obtain ⟨rfl, -⟩ := List.cons.inj hrest
        rw [hsuffix x List.mem_cons_self] at hnone
        cases hnone.2
      | nil =>
        obtain rfl : x :: t = cs := hrest
        exact hlongest.not_tokenText _ (tokenText_mark hx)
  | lower =>
    obtain ⟨rfl, rfl⟩ := List.cons.inj heq
    exact scan_marked (.inl rfl) htake hend
  | upper =>
    obtain ⟨rfl, rfl⟩ := List.cons.inj heq
    exact scan_marked (.inr rfl) htake hend

end

theorem symbol?_eq_some {text : List Char} {s : Symbol} {n : Nat} (h : symbol? text = some (s, n)) :
    ∃ cs, s.text.toList ++ cs = text := by
  unfold symbol? at h
  split at h
  all_goals
    first
    | obtain ⟨rfl, -⟩ := Prod.mk.inj (Option.some.inj h)
      exact ⟨_, rfl⟩
    | cases h

/-- An angle that the next character does not double or join with an equals sign stands alone. -/
theorem symbol?_angle {d : Char} (ds : List Char) (hequal : d ≠ '=') :
    (d ≠ '<' → symbol? ('<' :: d :: ds) = some (.operator .lt, 0)) ∧
      (d ≠ '>' → symbol? ('>' :: d :: ds) = some (.operator .gt, 0)) := by
  constructor
  · intro hshift
    simp [symbol?, hshift, hequal]
  · intro hshift
    simp [symbol?, hshift, hequal]

theorem scan_symbol (s : Symbol) (heq : c :: rest = s.text.toList ++ cs)
    (hlongest : NoLonger s.text.toList.length (s.text.toList ++ cs)) :
    scan c rest = .ok (.symbol s, s.text.toList.length - 1) := by
  cases s with
  | operator op =>
    cases op with
    | lt =>
      obtain ⟨rfl, rfl⟩ : c = '<' ∧ rest = cs := List.cons.inj heq
      cases rest with
      | nil => rfl
      | cons d ds =>
        have hshift : d ≠ '<' := by
          rintro rfl
          exact hlongest.not_tokenText _ (.symbol (.operator .shl))
        have hequal : d ≠ '=' := by
          rintro rfl
          exact hlongest.not_tokenText _ (.symbol (.operator .le))
        rw [scan, if_neg (by decide), if_neg (by decide), (symbol?_angle ds hequal).1 hshift]
        rfl
    | gt =>
      obtain ⟨rfl, rfl⟩ : c = '>' ∧ rest = cs := List.cons.inj heq
      cases rest with
      | nil => rfl
      | cons d ds =>
        have hshift : d ≠ '>' := by
          rintro rfl
          exact hlongest.not_tokenText _ (.symbol (.operator .shr))
        have hequal : d ≠ '=' := by
          rintro rfl
          exact hlongest.not_tokenText _ (.symbol (.operator .ge))
        rw [scan, if_neg (by decide), if_neg (by decide), (symbol?_angle ds hequal).2 hshift]
        rfl
    | _ =>
      obtain ⟨rfl, rfl⟩ := List.cons.inj heq
      rfl
  | _ =>
    obtain ⟨rfl, rfl⟩ := List.cons.inj heq
    rfl

/-- **Where the longest token text stands for a lexeme, that lexeme is scanned, and where it stands
for none the scan fails.** -/
theorem scan_of_longest {w : List Char} {o : Option Lexeme} (hw : TokenText w o)
    (hlongest : NoLonger w.length (w ++ cs)) (heq : c :: rest = w ++ cs) :
    (scan c rest).toOption = o.map (·, w.length - 1) := by
  cases hw with
  | word hc hmore =>
    rw [List.cons_append] at heq
    obtain ⟨rfl, rfl⟩ := List.cons.inj heq
    rw [scan_word hc hmore hlongest]
    rfl
  | literal hmark hdigits hsuffix hne =>
    have hsplit := heq
    rw [List.append_assoc, List.append_assoc] at hsplit
    rw [scan_literal hmark hdigits hsuffix hlongest hne hsplit]
    cases literal _ _ _ <;> rfl
  | symbol s =>
    rw [scan_symbol s heq hlongest]
    rfl

/-! ## The whole text -/

/-- A token starts with a character that is no space. -/
theorem TokenText.head {w : List Char} {o : Option Lexeme} (h : TokenText w o) :
    ∃ d ds, w = d :: ds ∧ isSpace d = false := by
  cases h with
  | @word c more hc =>
    exact ⟨c, more, rfl, isSpace_of_inWord (inWord_of_startsWord hc)⟩
  | @literal base mark digits suffix hmark hdigits _ hne =>
    cases hmark with
    | decimal =>
      obtain ⟨d, ds, rfl⟩ := List.exists_cons_of_ne_nil hne
      have hdigit : d.isDigit = true := Text.isDigitOf_ten d ▸ hdigits d List.mem_cons_self
      exact ⟨d, ds ++ suffix, rfl, isSpace_of_inWord (inWord_of_isDigit hdigit)⟩
    | lower | upper => exact ⟨_, _, rfl, rfl⟩
  | symbol s =>
    cases s with
    | operator op => cases op <;> exact ⟨_, _, rfl, rfl⟩
    | _ => exact ⟨_, _, rfl, rfl⟩

/-- A character that is scanned starts a token text. -/
theorem exists_tokenText {l : Lexeme} {more : Nat} (h : scan c rest = .ok (l, more)) :
    ∃ w cs o, TokenText w o ∧ w ++ cs = c :: rest := by
  rw [scan] at h
  split at h
  · rename_i hc
    exact ⟨[c], rest, _, .word hc (fun _ hd => (nomatch hd)), rfl⟩
  split at h
  · rename_i hdigit
    have hdigits : ∀ d ∈ [c], Text.isDigitOf 10 d = true :=
      List.forall_mem_singleton.mpr (Text.isDigitOf_ten c ▸ hdigit)
    have hnone : ∀ d ∈ [], inSuffix d = true := fun _ hd => (nomatch hd)
    exact ⟨[c], rest, _, .literal .decimal hdigits hnone (List.cons_ne_nil _ _), rfl⟩
  · split at h
    · rename_i s n hsymbol
      obtain ⟨cs, hcs⟩ := symbol?_eq_some hsymbol
      exact ⟨s.text.toList, cs, _, .symbol s, hcs⟩
    · cases h

/-- Of the token texts that stand at a place one is the longest. -/
theorem exists_longest {text : List Char} (h : ∃ w cs o, TokenText w o ∧ w ++ cs = text) :
    ∃ w cs o, TokenText w o ∧ w ++ cs = text ∧ NoLonger w.length text := by
  classical
  obtain ⟨w, cs, o, hw, htext⟩ := h
  have hbound : ∀ {w cs : List Char}, w ++ cs = text → w.length ≤ text.length := by
    rintro w cs rfl
    rw [List.length_append]
    omega
  have hfound := Nat.findGreatest_spec
    (P := fun n => ∃ w cs o, TokenText w o ∧ w ++ cs = text ∧ w.length = n) (hbound htext)
    ⟨w, cs, o, hw, htext, rfl⟩
  obtain ⟨w', cs', o', hw', htext', hlength⟩ := hfound
  refine ⟨w', cs', o', hw', htext', fun w'' cs'' o'' hw'' htext'' => ?_⟩
  rw [hlength]
  exact Nat.le_findGreatest (hbound htext'') ⟨w'', cs'', o'', hw'', htext'', rfl⟩

theorem lexes_of_lexFrom {offset : Nat} {tokens : List Token}
    (h : lexFrom offset cs = .ok tokens) : Lexes cs (tokens.map Token.lexeme) := by
  fun_induction lexFrom offset cs generalizing tokens with
  | case1 =>
    obtain rfl := Except.ok.inj h
    exact .done
  | case2 offset c rest hspace ih => exact .space hspace (ih h)
  | case3 => cases h
  | case4 offset c rest hspace l more hscan ih =>
    obtain ⟨after, hafter, rfl⟩ := map_eq_ok h
    obtain ⟨w, cs, o, hw, htext, hlongest⟩ := exists_longest (exists_tokenText hscan)
    have hlexeme := scan_of_longest hw (htext ▸ hlongest) htext.symm
    rw [hscan] at hlexeme
    obtain ⟨l', rfl, hpair⟩ := Option.map_eq_some_iff.mp hlexeme.symm
    obtain ⟨rfl, rfl⟩ := Prod.mk.inj hpair
    obtain ⟨d, ds, rfl, -⟩ := hw.head
    rw [List.cons_append] at htext
    obtain ⟨rfl, rfl⟩ := List.cons.inj htext
    have hdrop : (ds ++ cs).drop ((d :: ds).length - 1) = cs := List.drop_left
    rw [hdrop] at ih hafter
    exact .token hw hlongest (ih hafter)

theorem lexFrom_of_lexes {ls : List Lexeme} (h : Lexes cs ls) (offset : Nat) :
    ∃ tokens, lexFrom offset cs = .ok tokens ∧ tokens.map Token.lexeme = ls := by
  induction h generalizing offset with
  | done => exact ⟨[], by rw [lexFrom], rfl⟩
  | space hc _ ih =>
    obtain ⟨tokens, hlex, hls⟩ := ih (offset + 1)
    exact ⟨tokens, by rw [lexFrom, if_pos hc, hlex], hls⟩
  | token hw hlongest _ ih =>
    obtain ⟨d, ds, rfl, hspace⟩ := hw.head
    have hscan := eq_ok_of_toOption (scan_of_longest hw hlongest List.cons_append.symm)
    obtain ⟨tokens, hlex, hls⟩ := ih (offset + 1 + ds.length)
    refine ⟨⟨_, offset⟩ :: tokens, ?_, congrArg (_ :: ·) hls⟩
    rw [List.cons_append, lexFrom, hspace, if_neg Bool.false_ne_true, hscan]
    simp only [List.length_cons, Nat.add_sub_cancel, List.drop_left, hlex]
    rfl

/-- **The lexer cuts a text at its longest tokens, and fails only where that cannot be done.** -/
theorem lexes_iff {ls : List Lexeme} :
    Lexes cs ls ↔ ∃ tokens, lexFrom 0 cs = .ok tokens ∧ tokens.map Token.lexeme = ls := by
  constructor
  · exact fun h => lexFrom_of_lexes h 0
  · rintro ⟨tokens, hlex, rfl⟩
    exact lexes_of_lexFrom hlex

end
end CustomIsa.Expr
