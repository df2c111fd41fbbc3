import CustomIsa.Proofs.Expr.Lexing
import CustomIsa.Proofs.Expr.Tree
/-! # Rendered expressions

An expression is rendered with every binary operation and conditional in parentheses, so each of its
parts reads as an operand, whatever follows. The text is cut into the lexemes of a phrase
(`Expr.spells_render`), the phrase denotes the expression (`Expr.derives_phrase`), and so the text
is read as the expression that it was rendered from (`Expr.ofText_render`). -/
namespace CustomIsa

namespace Expr
variable {α : Type}

/-! ## Cutting rendered text -/

/-- The text is over, or goes on with a character that does not belong to a word or number. -/
def Apart (rest : List Char) : Prop := ∀ c cs, rest = c :: cs → inWord c = false

theorem apart_cons {c : Char} (h : inWord c = false) (cs : List Char) : Apart (c :: cs) := by
  intro d ds heq
  obtain ⟨rfl, -⟩ := List.cons.inj heq
  exact h

theorem Apart.takeWhile {rest : List Char} (h : Apart rest) {p : Char → Bool}
    (hp : ∀ c, p c = true → inWord c = true) : rest.takeWhile p = [] := by
  cases rest with
  | nil => rfl
  | cons c cs =>
    have hc : p c ≠ true := fun hc => by
      have hword := hp c hc
      rw [h c cs rfl] at hword
      cases hword
    rw [List.takeWhile_cons, if_neg hc]

/-- The text is cut into the given lexemes if what follows it is as said. -/
def Spells (follow : List Char → Prop) (cs : List Char) (ls : List Lexeme) : Prop :=
  ∀ offset rest, follow rest → ∃ tokens next, tokens.map Token.lexeme = ls ∧
    lexFrom offset (cs ++ rest) = (lexFrom next rest).map (tokens ++ ·)

namespace Spells
variable {follow follow' : List Char → Prop} {cs ds : List Char} {ls ms : List Lexeme}

theorem append (h : Spells follow cs ls) (h' : Spells follow' ds ms)
    (hfollow : ∀ rest, follow' rest → follow (ds ++ rest)) :
    Spells follow' (cs ++ ds) (ls ++ ms) := by
  intro offset rest hrest
  obtain ⟨tokens, mid, rfl, hlex⟩ := h offset (ds ++ rest) (hfollow rest hrest)
  obtain ⟨tokens', next, rfl, hlex'⟩ := h' mid rest hrest
  refine ⟨tokens ++ tokens', next, List.map_append, ?_⟩
  rw [List.append_assoc, hlex, hlex']
  cases lexFrom next rest with
  | error => rfl
  | ok more => exact congrArg Except.ok (List.append_assoc _ _ _).symm

/-- One lexeme. -/
theorem single {c : Char} {l : Lexeme} (hspace : isSpace c = false)
    (hscan : ∀ rest, follow rest → scan c (cs ++ rest) = .ok (l, cs.length)) :
    Spells follow (c :: cs) [l] := by
  intro offset rest hrest
  refine ⟨[⟨l, offset⟩], offset + 1 + cs.length, rfl, ?_⟩
  rw [List.cons_append, lexFrom, hspace, if_neg Bool.false_ne_true, hscan rest hrest]
  simp only [List.drop_left]
  rfl

/-- A blank. -/
theorem blank : Spells (fun _ => True) [' '] [] := by
  intro offset rest _
  refine ⟨[], offset + 1, rfl, ?_⟩
  rw [List.singleton_append, lexFrom, if_pos (show isSpace ' ' = true from rfl)]
  cases lexFrom (offset + 1) rest <;> rfl

end Spells

theorem spells_word {name : String} (h : IsWord name) : Spells Apart name.toList [.word name] := by
  obtain ⟨c, more, rfl, hstart, hmore⟩ := h
  rw [String.toList_ofList]
  refine Spells.single (isSpace_of_inWord (inWord_of_startsWord hstart)) fun rest hrest => ?_
  rw [scan, if_pos hstart, List.takeWhile_append_of_pos hmore, hrest.takeWhile fun _ hc => hc,
    List.append_nil]

theorem inWord_of_inSuffix {c : Char} (h : inSuffix c = true) : inWord c = true := by
  simp only [inSuffix, Bool.or_eq_true, decide_eq_true_eq] at h
  rcases h with ((rfl | rfl) | rfl) | rfl <;> rfl

/-- Digits that no mark or suffix follows are a decimal literal. -/
theorem scan_decimal {c : Char} {more rest : List Char}
    (hdigits : ∀ d ∈ c :: more, d.isDigit = true) (hrest : Apart rest) :
    scan c (more ++ rest) = (literal 10 (c :: more) []).map (·, more.length) := by
  have hclass : Text.isDigitOf 10 = Char.isDigit := funext Text.isDigitOf_ten
  have hstop : ∀ d ds, [] ++ rest = d :: ds → Text.isDigitOf 10 d = false := by
    intro d ds heq
    rw [hclass, Bool.eq_false_iff]
    intro hd
    have hword := inWord_of_isDigit hd
    rw [hrest d ds heq] at hword
    cases hword
  have htake := takeWhile_append_of_stop (hclass ▸ hdigits) hstop
  -- what follows the first digit is a digit or stands apart, so it marks no other base
  have hplain : ∀ x t, more ++ rest = x :: t → x = 'x' ∨ x = 'X' → c ≠ '0' := by
    intro x t heq hx
    have hletter : inWord x = true ∧ x.isDigit = false := by
      rcases hx with rfl | rfl <;> exact ⟨rfl, rfl⟩
    cases more with
    | nil =>
      rw [hrest x t heq] at hletter
      cases hletter.1
    | cons d more =>
      obtain ⟨rfl, -⟩ := List.cons.inj heq
      rw [hdigits d (by simp)] at hletter
      cases hletter.2
  have hscan := scan_unmarked (hdigits c List.mem_cons_self) hplain rfl htake
    (hrest.takeWhile fun _ => inWord_of_inSuffix)
  rwa [List.append_nil] at hscan

theorem spells_decimal {n : Nat} (h : n < 2 ^ 127) :
    Spells Apart (toString n).toList [.integer n false false false] := by
  rw [Nat.toString_eq_ofList_toDigits, String.toList_ofList]
  have hread : Text.natOfDigits? 10 (Nat.toDigits 10 n) = some n :=
    Text.natOfDigits?_toDigits (by decide) (by decide) n
  have hdigits : ∀ d ∈ Nat.toDigits 10 n, d.isDigit = true :=
    fun d hd => Nat.isDigit_of_mem_toDigits (by decide) (by decide) hd
  cases hcs : Nat.toDigits 10 n with
  | nil => exact absurd hcs Nat.toDigits_ne_nil
  | cons c more =>
    rw [hcs] at hread hdigits
    have hc : c.isDigit = true := hdigits c List.mem_cons_self
    have hliteral : literal 10 (c :: more) [] = .ok (.integer n false false false) := by
      rw [literal, hread, Option.filter_some, if_pos (decide_eq_true h)]
      rfl
    refine Spells.single (isSpace_of_inWord (inWord_of_isDigit hc)) fun rest hrest => ?_
    rw [scan_decimal hdigits hrest, hliteral]
    rfl

/-! ## Symbols -/

/-- A symbol of one character that starts no longer one. -/
theorem spells_symbol {s : Symbol}
    (h : s ∈ [.operator .sub, .complement, .opening, .closing, .question, .colon]) :
    Spells (fun _ => True) s.text.toList [.symbol s] := by
  simp only [List.mem_cons, List.not_mem_nil, or_false] at h
  rcases h with rfl | rfl | rfl | rfl | rfl | rfl <;>
    exact Spells.single rfl fun _ _ => rfl

/-- A symbol between blanks. -/
theorem spells_spaced (s : Symbol) :
    Spells (fun _ => True) (' ' :: (s.text.toList ++ [' '])) [.symbol s] := by
  have hsymbol : Spells (fun rest => ∃ cs, rest = ' ' :: cs) s.text.toList [.symbol s] := by
    cases s with
    | operator op => cases op <;> exact Spells.single rfl (by rintro _ ⟨cs, rfl⟩; rfl)
    | _ => exact Spells.single rfl (by rintro _ ⟨cs, rfl⟩; rfl)
  have hspaced := hsymbol.append Spells.blank fun rest _ => ⟨rest, rfl⟩
  exact Spells.blank.append hspaced fun _ _ => trivial

/-! ## Rendered text -/

/-- The phrase as which an expression is rendered. -/
def phrase : Expr α → Phrase
  | .var _ name _ => .name name
  | .const _ v _ => .literal v.toNat false false false
  | .unary _ .neg a => .signed .minus a.phrase
  | .unary _ .not a => .signed .complement a.phrase
  | .binary _ op a b => .paren (.binary op a.phrase b.phrase)
  | .cast _ ty a => .cast [ty.shortName] a.phrase
  | .select _ c a b => .paren (.conditional c.phrase a.phrase b.phrase)

/-- What is rendered can be read back: variables are declared words, constants have the types of
their decimal spellings, and casts are to types whose short names are no variables. -/
def Readable (vars : Typing) : Expr α → Prop
  | .var _ name ty => IsWord name ∧ vars.get? name = some ty
  | .const _ v ty => ∃ n : Nat, v = n ∧ typeOfLiteral? n false false false = some ty
  | .unary _ _ a => a.Readable vars
  | .binary _ _ a b => a.Readable vars ∧ b.Readable vars
  | .cast _ ty a =>
    (IntType.ofWords? [ty.shortName] = some ty ∧ vars.contains ty.shortName = false) ∧
      a.Readable vars
  | .select _ c a b => c.Readable vars ∧ a.Readable vars ∧ b.Readable vars

theorem isWord_shortName (ty : IntType) : IsWord ty.shortName := by
  refine ⟨if ty.signed then 'i' else 'u', Nat.toDigits 10 ty.bits, ?_, ?_, fun d hd => ?_⟩
  · rw [IntType.shortName, Nat.toString_eq_ofList_toDigits]
    cases ty.signed <;> exact (String.ofList_append).symm
  · cases ty.signed <;> rfl
  · exact inWord_of_isDigit (Nat.isDigit_of_mem_toDigits (by decide) (by decide) hd)

theorem lt_of_typeOfLiteral {n : Nat} {ty : IntType}
    (h : typeOfLiteral? n false false false = some ty) : n < 2 ^ 127 := by
  obtain ⟨hproper, hhas⟩ := proper_of_typeOfLiteral h
  have hle := (IntType.magnitude_of_has hproper hhas).2
  omega

/-- **Rendered text is cut into the lexemes of the expression.** -/
theorem spells_render {vars : Typing} {e : Expr α} (h : e.Readable vars) :
    Spells Apart e.render.toList e.phrase.lexemes := by
  have happart : ∀ {cs : List Char} {ls : List Lexeme}, Spells (fun _ => True) cs ls →
      Spells Apart cs ls := fun h offset rest _ => h offset rest trivial
  have hopen := spells_symbol (s := .opening) (by simp)
  have hclose := spells_symbol (s := .closing) (by simp)
  induction e with
  | var tag name ty => exact spells_word h.1
  | const tag v ty =>
    obtain ⟨n, rfl, hty⟩ := h
    exact spells_decimal (lt_of_typeOfLiteral hty)
  | unary tag op a ih =>
    rw [render, String.toList_append]
    cases op with
    | neg => exact (spells_symbol (s := .operator .sub) (by simp)).append (ih h) fun _ _ => trivial
    | not => exact (spells_symbol (s := .complement) (by simp)).append (ih h) fun _ _ => trivial
  | binary tag op a b iha ihb =>
    have hright := (ihb h.2).append (happart hclose) fun _ _ => apart_cons rfl _
    have hboth := (iha h.1).append ((spells_spaced (.operator op)).append hright
      fun _ _ => trivial) fun _ _ => apart_cons rfl _
    simpa [render, phrase, Phrase.lexemes, Symbol.text] using hopen.append hboth fun _ _ => trivial
  | cast tag ty a ih =>
    have hname := (spells_word (isWord_shortName ty)).append (hclose.append (ih h.2)
      fun _ _ => trivial) fun _ _ => apart_cons rfl _
    simpa [render, phrase, Phrase.lexemes, Symbol.text] using hopen.append hname fun _ _ => trivial
  | select tag c a b ihc iha ihb =>
    have hright := (ihb h.2.2).append (happart hclose) fun _ _ => apart_cons rfl _
    have hleft := (iha h.2.1).append ((spells_spaced .colon).append hright
      fun _ _ => trivial) fun _ _ => apart_cons rfl _
    have hall := (ihc h.1).append ((spells_spaced .question).append hleft
      fun _ _ => trivial) fun _ _ => apart_cons rfl _
    simpa [render, phrase, Phrase.lexemes, Symbol.text] using hopen.append hall fun _ _ => trivial

/-- **The text of an expression lexes to its lexemes.** -/
theorem lex_render {vars : Typing} {e : Expr α} (h : e.Readable vars) :
    ∃ tokens, lex e.render = .ok tokens ∧ tokens.map Token.lexeme = e.phrase.lexemes := by
  obtain ⟨tokens, next, hmap, hlex⟩ := spells_render h 0 [] (by rintro _ _ ⟨⟩)
  rw [List.append_nil, lexFrom] at hlex
  exact ⟨tokens ++ [], hlex, by rw [List.append_nil, hmap]⟩

/-! ## Reading it back -/

variable {vars : Typing}

/-- **What is rendered derives:** every operation stands in parentheses, so each phrase is an
operand. -/
theorem derives_phrase {e : Expr Unit} (h : e.Readable vars) :
    Derives vars .operand e.phrase e := by
  have hloose : ∀ {p : Phrase} {a : Expr Unit} {i : Nat}, Derives vars .operand p a →
      i ≤ tiers.length → Derives vars (.tier i) p a :=
    fun ha hi => (Derives.operand ha).loosen hi (Nat.le_refl _)
  induction e with
  | var tag name ty => exact .name h.2
  | const tag v ty =>
    obtain ⟨n, rfl, hty⟩ := h
    exact .literal (typeOfLiteral?_eq_some_iff.mp hty)
  | unary tag op a ih =>
    cases op with
    | neg => exact .signed .minus (ih h)
    | not => exact .signed .complement (ih h)
  | binary tag op a b iha ihb =>
    obtain ⟨i, hi, hop⟩ := exists_tier op
    have hbinary : Derives vars (.tier i) (.binary op a.phrase b.phrase) (.binary () op a b) :=
      .binary (mem_tier_iff.mpr hop) (hloose (iha h.1) (Nat.le_of_lt hi)) (hloose (ihb h.2) hi)
    exact .paren (.single (hbinary.loosen (Nat.zero_le i) (Nat.le_of_lt hi)))
  | cast tag ty a ih => exact .cast h.1.2 h.1.1 (ih h.2)
  | select tag c a b ihc iha ihb =>
    exact .paren (.conditional (hloose (ihc h.1) (Nat.zero_le _))
      (.single (hloose (iha h.2.1) (Nat.zero_le _))) (.single (hloose (ihb h.2.2) (Nat.zero_le _))))

/-- **Rendered text is read as the expression that it was rendered from.** -/
theorem ofText_render {e : Expr Unit} (h : e.Readable vars) : ofText vars e.render = .ok e := by
  obtain ⟨tokens, hlex, htokens⟩ := lex_render h
  have htier : Derives vars (.tier 0) e.phrase e :=
    (Derives.operand (derives_phrase h)).loosen (Nat.zero_le _) (Nat.le_refl _)
  rw [ofText, hlex]
  exact ofTokens_eq_ok_iff.mpr ⟨e.phrase, .single htier, htokens⟩

/-- The outermost operation needs no parentheses. -/
theorem ofText_binary {op : BinaryOp} {a b : Expr Unit} (ha : a.Readable vars)
    (hb : b.Readable vars) :
    ofText vars (a.render ++ (" " ++ op.symbol ++ " ") ++ b.render) = .ok (.binary () op a b) := by
  have hspells := (spells_render ha).append ((spells_spaced (.operator op)).append
    (spells_render hb) fun _ _ => trivial) fun _ _ => apart_cons rfl _
  obtain ⟨tokens, next, htokens, hlex⟩ := hspells 0 [] (by rintro _ _ ⟨⟩)
  rw [List.append_nil, lexFrom] at hlex
  have hlex' : lex (a.render ++ (" " ++ op.symbol ++ " ") ++ b.render) = .ok (tokens ++ []) := by
    refine Eq.trans ?_ hlex
    simp [lex, Symbol.text]
  obtain ⟨i, hi, hop⟩ := exists_tier op
  have hleft := (Derives.operand (derives_phrase ha)).loosen (Nat.le_of_lt hi) (Nat.le_refl _)
  have hright := (Derives.operand (derives_phrase hb)).loosen hi (Nat.le_refl _)
  have hderives := (Derives.binary (mem_tier_iff.mpr hop) hleft hright).loosen (Nat.zero_le i)
    (Nat.le_of_lt hi)
  rw [ofText, hlex', List.append_nil]
  exact ofTokens_eq_ok_iff.mpr ⟨_, .single hderives, htokens⟩

end Expr
end CustomIsa
