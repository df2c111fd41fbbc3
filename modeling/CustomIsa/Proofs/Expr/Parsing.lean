import Mathlib.Order.Basic
import CustomIsa.Proofs.Expr.Grammar
import CustomIsa.Proofs.Foundations
/-! # The parser accepts exactly the grammar

The parser climbs through the tiers of binary operators: it reads an operand and then, in a loop,
the operators that bind at its level or above. What it returns derives (`Expr.Sound.all`): a phrase
that the loop has put together is followed by no operator tighter than its own, so it may stand to
the left of the next one. Every phrase is read as the expression it denotes (`Expr.Derives.reads`),
and so tokens are read as an expression if and only if they spell a phrase that denotes it
(`Expr.ofTokens_eq_ok_iff`). -/
namespace CustomIsa.Expr

/-- The lexemes of the tokens. -/
def lexemesOf (ts : List Token) : List Lexeme := ts.map Token.lexeme

section
variable {vars : Typing} {stop : Nat} {p q : Phrase} {a b e : Expr Unit} {ts rest : List Token}
  {level i : Nat}

/-! ## Literals and casts -/

theorem fits_iff_has {ty : IntType} (hbits : 0 < ty.bits ∧ ty.bits < 127) (v : Nat) :
    (if ty.signed then Bits.fitsSigned v ty.bits else Bits.fitsUnsigned v ty.bits) = true ↔
      ty.Has v := by
  obtain ⟨bits, signed⟩ := ty
  cases signed with
  | true => exact Bits.fitsSigned_iff_within hbits.1 hbits.2
  | false => exact Bits.fitsUnsigned_iff_within hbits.2

theorem typeOfLiteral?_eq_some_iff {v : Nat} {hex unsigned long : Bool} {ty : IntType} :
    typeOfLiteral? v hex unsigned long = some ty ↔ LiteralType v hex unsigned long ty := by
  have hbits : ∀ ty ∈ literalTypes hex unsigned long, 0 < ty.bits ∧ ty.bits < 127 := by
    cases hex <;> cases unsigned <;> cases long <;> decide
  have hfits : ∀ other ∈ literalTypes hex unsigned long,
      (if other.signed then Bits.fitsSigned v other.bits else Bits.fitsUnsigned v other.bits) =
        true ↔ other.Has v := fun other hother => fits_iff_has (hbits other hother) v
  rw [typeOfLiteral?, List.find?_eq_some_iff_append]
  constructor
  · rintro ⟨hty, before, after, heq, hnone⟩
    refine ⟨before, after, heq, (hfits ty (by simp [heq])).mp hty, fun other hother hhas => ?_⟩
    have hother' := (hfits other (by simp [heq, hother])).mpr hhas
    simpa [hother'] using hnone other hother
  · rintro ⟨before, after, heq, hhas, hnone⟩
    refine ⟨(hfits ty (by simp [heq])).mpr hhas, before, after, heq, fun other hother => ?_⟩
    rw [Bool.not_eq_true', Bool.eq_false_iff]
    exact fun hother' => hnone other hother ((hfits other (by simp [heq, hother])).mp hother')

theorem lexemesOf_leadingWords (ts : List Token) :
    lexemesOf ts = (leadingWords ts).1.map .word ++ lexemesOf (leadingWords ts).2 := by
  induction ts with
  | nil => rfl
  | cons t ts ih =>
    rw [leadingWords]
    split
    · rename_i x hx
      show t.lexeme :: lexemesOf ts = _
      rw [hx, ih]
      rfl
    · rfl

/-- A cast is recognised by its words alone, and only up to its closing parenthesis. -/
theorem castType?_eq_some {ty : IntType} (h : castType? vars ts = some (ty, rest)) :
    ∃ first more, lexemesOf ts =
        (first :: more).map .word ++ .symbol .closing :: lexemesOf rest ∧
      vars.contains first = false ∧ IntType.ofWords? (first :: more) = some ty := by
  have hwords := lexemesOf_leadingWords ts
  rw [castType?] at h
  split at h
  · rename_i first more offset after heq
    rw [heq] at hwords
    split at h
    · cases h
    · rename_i hfirst
      obtain ⟨ty', hty, hpair⟩ := Option.map_eq_some_iff.mp h
      obtain ⟨rfl, rfl⟩ := Prod.mk.inj hpair
      exact ⟨first, more, hwords, Bool.eq_false_iff.mpr hfirst, hty⟩
  · cases h

/-- The words up to a closing parenthesis are leading. -/
theorem leadingWords_append {words : List String} {t : Token} {s : Symbol}
    (hts : lexemesOf ts = words.map .word) (ht : t.lexeme = .symbol s) (rest : List Token) :
    leadingWords (ts ++ t :: rest) = (words, t :: rest) := by
  induction ts generalizing words with
  | nil =>
    obtain rfl := List.map_eq_nil_iff.mp hts.symm
    rw [List.nil_append, leadingWords, ht]
  | cons u ts ih =>
    cases words with
    | nil => cases hts
    | cons x words =>
      obtain ⟨hu, htail⟩ := List.cons.inj hts
      rw [List.cons_append, leadingWords, hu]
      simp only [ih htail]

/-- What stands in parentheses is no cast if it is a phrase. -/
theorem Derives.castType? {g : Category} {r : List Lexeme} (h : Derives vars g p a)
    (hts : lexemesOf ts = p.lexemes ++ r) : castType? vars ts = none := by
  cases hcast : Expr.castType? vars ts with
  | none => rfl
  | some found =>
    obtain ⟨first, more, hwords, hfirst, -⟩ := castType?_eq_some hcast
    rw [h.contains_of_head (hts.symm.trans hwords)] at hfirst
    cases hfirst

/-! ## What is read derives -/

/-- The category of the expressions that are read at a level. -/
def categoryAt (level : Nat) : Category :=
  if level ≤ 1 then .conditional else .tier (level - 3)

/-- A phrase of a tier belongs to all looser ones. -/
theorem Derives.loosen {j : Nat} (h : Derives vars (.tier j) p a) (hij : i ≤ j)
    (hj : j ≤ tiers.length) : Derives vars (.tier i) p a := by
  induction hij with
  | refl => exact h
  | step _ ih => exact ih (.tighter hj h) (Nat.le_of_succ_le hj)

theorem Derives.atLevel (h : Derives vars (.tier i) p a) (hlevel : level ≤ i + 3)
    (hi : i ≤ tiers.length) : Derives vars (categoryAt level) p a := by
  rw [categoryAt]
  split
  · exact .single (h.loosen (Nat.zero_le i) hi)
  · exact h.loosen (by omega) hi

/-- The tokens are a phrase of the category, which denotes the expression, and the rest. -/
def Splits (vars : Typing) (g : Category) (ls : List Lexeme) (e : Expr Unit) (rest : List Token) :
    Prop :=
  ∃ p, Derives vars g p e ∧ ls = p.lexemes ++ lexemesOf rest

/-- With the given fuel, everything that is read derives. -/
structure Sound (vars : Typing) (stop fuel : Nat) : Prop where
  operand : ∀ {ts e rest}, parseOperand vars stop fuel ts = .ok (e, rest) →
    Splits vars .operand (lexemesOf ts) e rest
  expr : ∀ {level ts e rest}, level ≤ tiers.length + 3 →
    parseExpr vars stop fuel level ts = .ok (e, rest) →
    Splits vars (categoryAt level) (lexemesOf ts) e rest ∧ Unbound level (lexemesOf rest)
  rest : ∀ {level i p a ts e rest}, level ≤ i + 3 → i ≤ tiers.length → Derives vars (.tier i) p a →
    Unbound (i + 4) (lexemesOf ts) → parseRest vars stop fuel level a ts = .ok (e, rest) →
    Splits vars (categoryAt level) (p.lexemes ++ lexemesOf ts) e rest ∧
      Unbound level (lexemesOf rest)

theorem expect_eq_ok {s : Symbol} (h : expect stop s ts = .ok rest) :
    lexemesOf ts = .symbol s :: lexemesOf rest := by
  unfold expect at h
  split at h
  · rename_i s' offset after
    split at h
    · rename_i heq
      obtain rfl := Except.ok.inj h
      rw [← heq]
      rfl
    · cases h
  · cases h

/-- The loop ends at a token that does not bind. -/
theorem parseRest_of_unbound (h : Unbound level (lexemesOf ts)) (fuel : Nat) (a : Expr Unit) :
    parseRest vars stop (fuel + 1) level a ts = .ok (a, ts) := by
  unfold parseRest
  split
  · exact if_pos (h _ _ rfl 1 rfl)
  · rename_i op offset more
    exact if_pos (h _ _ rfl op.level rfl)
  · rfl

theorem eq_of_parseRest {fuel : Nat} (h : Unbound level (lexemesOf ts))
    (hread : parseRest vars stop fuel level a ts = .ok (e, rest)) : a = e ∧ ts = rest := by
  cases fuel with
  | zero => cases hread
  | succ fuel =>
    rw [parseRest_of_unbound h] at hread
    exact Prod.mk.inj (Except.ok.inj hread)

/-- The loop goes on at a conditional or at an operator. -/
theorem binding_of_not_unbound (h : ¬Unbound level (lexemesOf ts)) :
    (∃ offset more, ts = ⟨.symbol .question, offset⟩ :: more ∧ level ≤ 1) ∨
      ∃ op offset more, ts = ⟨.symbol (.operator op), offset⟩ :: more ∧ level ≤ op.level := by
  cases ts with
  | nil => exact absurd (unbound_nil level) h
  | cons t more =>
    obtain ⟨lexeme, offset⟩ := t
    by_contra hnone
    rw [not_or] at hnone
    refine h (unbound_cons (fun k hk => ?_) _)
    by_contra hle
    obtain ⟨rfl, rfl⟩ | ⟨op, rfl, rfl⟩ := bindingLevel?_eq_some hk
    · exact hnone.1 ⟨offset, more, rfl, Nat.not_lt.mp hle⟩
    · exact hnone.2 ⟨op, offset, more, rfl, Nat.not_lt.mp hle⟩

namespace Sound
variable {fuel : Nat}

theorem operand_succ (ih : Sound vars stop fuel)
    (h : parseOperand vars stop (fuel + 1) ts = .ok (e, rest)) :
    Splits vars .operand (lexemesOf ts) e rest := by
  cases ts with
  | nil => cases h
  | cons t ts =>
    obtain ⟨lexeme, offset⟩ := t
    -- a sign before what has been read
    have hsign : ∀ sign : Sign, lexeme = .symbol sign.symbol →
        (∃ a, parseOperand vars stop fuel ts = .ok (a, rest) ∧ sign.apply a = e) →
        Splits vars .operand (lexemesOf (⟨lexeme, offset⟩ :: ts)) e rest := by
      rintro sign rfl ⟨a, ha, rfl⟩
      obtain ⟨p, hp, hts⟩ := ih.operand ha
      exact ⟨.signed sign p, .signed sign hp, congrArg (_ :: ·) hts⟩
    unfold parseOperand at h
    split at h
    · obtain ⟨⟨a, rest'⟩, ha, h⟩ := bind_eq_ok h
      obtain ⟨rfl, rfl⟩ := Prod.mk.inj (Except.ok.inj h)
      exact hsign .minus rfl ⟨a, ha, rfl⟩
    · obtain ⟨⟨a, rest'⟩, ha, h⟩ := bind_eq_ok h
      obtain ⟨rfl, rfl⟩ := Prod.mk.inj (Except.ok.inj h)
      exact hsign .complement rfl ⟨a, ha, rfl⟩
    · exact hsign .plus rfl ⟨e, h, rfl⟩
    · split at h
      · rename_i ty after hcast
        obtain ⟨first, more, hwords, hfirst, hty⟩ := castType?_eq_some hcast
        obtain ⟨⟨a, rest'⟩, ha, h⟩ := bind_eq_ok h
        obtain ⟨rfl, rfl⟩ := Prod.mk.inj (Except.ok.inj h)
        obtain ⟨p, hp, hafter⟩ := ih.operand ha
        refine ⟨.cast (first :: more) p, .cast hfirst hty hp, ?_⟩
        rw [Phrase.cast_append, ← hafter, ← hwords]
        rfl
      · obtain ⟨⟨a, inner⟩, ha, h⟩ := bind_eq_ok h
        obtain ⟨outer, hclose, h⟩ := bind_eq_ok h
        obtain ⟨rfl, rfl⟩ := Prod.mk.inj (Except.ok.inj h)
        obtain ⟨⟨p, hp, hts⟩, -⟩ := ih.expr (Nat.zero_le _) ha
        refine ⟨.paren p, .paren hp, ?_⟩
        rw [Phrase.paren_append, ← expect_eq_ok hclose, ← hts]
        rfl
    · rename_i x
      split at h
      · rename_i ty hty
        obtain ⟨rfl, rfl⟩ := Prod.mk.inj (Except.ok.inj h)
        exact ⟨.name x, .name hty, rfl⟩
      · cases h
    · rename_i v hex unsigned long
      split at h
      · rename_i ty hty
        obtain ⟨rfl, rfl⟩ := Prod.mk.inj (Except.ok.inj h)
        exact ⟨.literal v hex unsigned long, .literal (typeOfLiteral?_eq_some_iff.mp hty), rfl⟩
      · cases h
    · cases h

/-- An operator extends the phrase before it if it binds at the level; the phrase is one of the
operator's tier, since no tighter operator was left to follow it. -/
theorem rest_succ (ih : Sound vars stop fuel) (hlevel : level ≤ i + 3) (hi : i ≤ tiers.length)
    (hp : Derives vars (.tier i) p a) (hts : Unbound (i + 4) (lexemesOf ts))
    (h : parseRest vars stop (fuel + 1) level a ts = .ok (e, rest)) :
    Splits vars (categoryAt level) (p.lexemes ++ lexemesOf ts) e rest ∧
      Unbound level (lexemesOf rest) := by
  by_cases hunbound : Unbound level (lexemesOf ts)
  · rw [parseRest_of_unbound hunbound] at h
    obtain ⟨rfl, rfl⟩ := Prod.mk.inj (Except.ok.inj h)
    exact ⟨⟨p, hp.atLevel hlevel hi, rfl⟩, hunbound⟩
  obtain ⟨offset, more, rfl, hle⟩ | ⟨op, offset, more, rfl, hle⟩ := binding_of_not_unbound hunbound
  · rw [parseRest, if_neg (by omega)] at h
    obtain ⟨⟨b, rest₁⟩, hb, h⟩ := bind_eq_ok h
    obtain ⟨rest₂, hcolon, h⟩ := bind_eq_ok h
    obtain ⟨⟨c, rest₃⟩, hc, h⟩ := bind_eq_ok h
    obtain ⟨⟨q, hq, hmore⟩, -⟩ := ih.expr (Nat.zero_le _) hb
    obtain ⟨⟨r, hr, hrest₂⟩, hend⟩ := ih.expr (Nat.le_add_left 1 _) hc
    -- nothing binds the last operand, so nothing binds the conditional
    have hend : Unbound level (lexemesOf rest₃) := hend.zero.mono (Nat.zero_le _)
    obtain ⟨rfl, rfl⟩ := eq_of_parseRest hend h
    rw [categoryAt, if_pos hle]
    refine ⟨⟨.conditional p q r, .conditional (hp.loosen (Nat.zero_le _) hi) hq hr, ?_⟩, hend⟩
    rw [Phrase.conditional_append, ← hrest₂, ← expect_eq_ok hcolon, ← hmore]
    rfl
  · rw [parseRest, if_neg (Nat.not_lt.mpr hle)] at h
    obtain ⟨⟨b, rest₁⟩, hb, h⟩ := bind_eq_ok h
    obtain ⟨j, hj, hop⟩ := exists_tier op
    have hbound : op.level < i + 4 := hts _ _ rfl op.level rfl
    obtain ⟨⟨q, hq, hmore⟩, hnext⟩ := ih.expr (by omega) hb
    rw [hop, categoryAt, if_neg (by omega)] at hq
    rw [hop] at hle hnext
    have hbinary : Derives vars (.tier j) (.binary op p q) (.binary () op a b) :=
      .binary (mem_tier_iff.mpr hop) (hp.loosen (by omega) hi) hq
    have hall := ih.rest hle (Nat.le_of_lt hj) hbinary hnext h
    rwa [Phrase.binary_append, ← hmore] at hall

/-- Each of the functions calls the others with less fuel, so the induction is on that. -/
theorem all (vars : Typing) (stop fuel : Nat) : Sound vars stop fuel := by
  induction fuel with
  | zero =>
    exact ⟨fun h => (nomatch h), fun _ h => (nomatch h), fun _ _ _ _ h => (nomatch h)⟩
  | succ fuel ih =>
    refine ⟨ih.operand_succ, fun {level ts e rest} hlevel h => ?_, ih.rest_succ⟩
    rw [parseExpr] at h
    obtain ⟨⟨a, after⟩, ha, h⟩ := bind_eq_ok h
    obtain ⟨p, hp, hts⟩ := ih.operand ha
    rw [hts]
    exact ih.rest hlevel (Nat.le_refl _) (.operand hp)
      ((unbound_tightest _).mono (Nat.le_succ _)) h

end Sound

/-! ## Every phrase is read -/

/-- The tokens are read as the operand, whatever follows. -/
def ReadsOperand (vars : Typing) (stop : Nat) (ts : List Token) (e : Expr Unit) : Prop :=
  ∀ fuel rest, 2 * ts.length ≤ fuel → parseOperand vars stop fuel (ts ++ rest) = .ok (e, rest)

/-- The tokens are read up to the point where the loop stands after `e`, unless a tighter operator
follows. -/
def ReadsTier (vars : Typing) (stop i : Nat) (ts : List Token) (e : Expr Unit) : Prop :=
  ∀ level n rest result, level ≤ i + 3 → 1 ≤ n → Unbound (i + 4) (lexemesOf rest) →
    (∀ fuel, n ≤ fuel → parseRest vars stop fuel level e rest = result) →
    ∀ fuel, n + 2 * ts.length ≤ fuel → parseExpr vars stop fuel level (ts ++ rest) = result

/-- The tokens are read as the expression, unless an operator or conditional follows. -/
def ReadsExpr (vars : Typing) (stop : Nat) (ts : List Token) (e : Expr Unit) : Prop :=
  ∀ level fuel rest, level ≤ 1 → Unbound 0 (lexemesOf rest) → 1 + 2 * ts.length ≤ fuel →
    parseExpr vars stop fuel level (ts ++ rest) = .ok (e, rest)

theorem expect_cons {t : Token} {s : Symbol} (h : t.lexeme = .symbol s) (rest : List Token) :
    expect stop s (t :: rest) = .ok rest := by
  obtain ⟨lexeme, offset⟩ := t
  obtain rfl : lexeme = .symbol s := h
  rw [expect, if_pos rfl]

section
variable {as bs cs ws : List Token} {c : Expr Unit} {t u : Token}

theorem ReadsOperand.signed (h : ReadsOperand vars stop ts a) (sign : Sign)
    (ht : t.lexeme = .symbol sign.symbol) : ReadsOperand vars stop (t :: ts) (sign.apply a) := by
  intro fuel rest hfuel
  rw [List.length_cons] at hfuel
  obtain ⟨fuel, rfl⟩ : ∃ n, fuel = n + 1 := ⟨fuel - 1, by omega⟩
  obtain ⟨lexeme, offset⟩ := t
  obtain rfl : lexeme = _ := ht
  have ha := h fuel rest (by omega)
  rw [List.cons_append]
  cases sign with
  | minus | complement =>
    show (parseOperand vars stop fuel (ts ++ rest) >>= _) = _
    rw [ha]
    rfl
  | plus => exact ha

theorem ReadsOperand.cast (h : ReadsOperand vars stop ts a) {first : String} {more : List String}
    {ty : IntType} (ht : t.lexeme = .symbol .opening) (hu : u.lexeme = .symbol .closing)
    (hws : lexemesOf ws = (first :: more).map .word) (hfirst : vars.contains first = false)
    (hty : IntType.ofWords? (first :: more) = some ty) :
    ReadsOperand vars stop (t :: (ws ++ u :: ts)) (.cast () ty a) := by
  intro fuel rest hfuel
  simp only [List.length_cons, List.length_append] at hfuel
  obtain ⟨fuel, rfl⟩ : ∃ n, fuel = n + 1 := ⟨fuel - 1, by omega⟩
  obtain ⟨lexeme, offset⟩ := t
  obtain rfl : lexeme = _ := ht
  have hcast : castType? vars (ws ++ u :: (ts ++ rest)) = some (ty, ts ++ rest) := by
    rw [castType?, leadingWords_append hws hu]
    obtain ⟨lexeme, offset⟩ := u
    obtain rfl : lexeme = _ := hu
    simp only [hfirst, hty, Bool.false_eq_true, if_false, Option.map_some]
  rw [List.cons_append, List.append_assoc, List.cons_append, parseOperand, hcast]
  simp only [h fuel rest (by omega)]
  rfl

theorem ReadsExpr.paren (h : ReadsExpr vars stop ts a) (ht : t.lexeme = .symbol .opening)
    (hu : u.lexeme = .symbol .closing) (hcast : ∀ rest, castType? vars (ts ++ rest) = none) :
    ReadsOperand vars stop (t :: (ts ++ [u])) a := by
  intro fuel rest hfuel
  simp only [List.length_cons, List.length_append, List.length_nil] at hfuel
  obtain ⟨fuel, rfl⟩ : ∃ n, fuel = n + 1 := ⟨fuel - 1, by omega⟩
  obtain ⟨lexeme, offset⟩ := t
  obtain rfl : lexeme = _ := ht
  have hclosing : Unbound 0 (lexemesOf (u :: rest)) := by
    refine unbound_cons (fun k hk => ?_) _
    rw [hu] at hk
    cases hk
  rw [List.cons_append, List.append_assoc, List.singleton_append, parseOperand, hcast]
  simp only [h 0 fuel (u :: rest) (by omega) hclosing (by omega)]
  show (expect stop .closing (u :: rest) >>= _) = _
  rw [expect_cons hu]
  rfl

theorem ReadsOperand.tier (h : ReadsOperand vars stop ts a) (hne : ts ≠ []) :
    ReadsTier vars stop tiers.length ts a := by
  intro level n rest result _ hn _ hresult fuel hfuel
  have hpos := List.length_pos_iff.mpr hne
  obtain ⟨fuel, rfl⟩ : ∃ n, fuel = n + 1 := ⟨fuel - 1, by omega⟩
  rw [parseExpr, h fuel rest (by omega)]
  exact hresult fuel (by omega)

theorem ReadsTier.tighter (h : ReadsTier vars stop (i + 1) ts a) : ReadsTier vars stop i ts a := by
  intro level n rest result hlevel hn hrest
  exact h level n rest result (by omega) hn (hrest.mono (by omega))

/-- A right operand is read up to the next operator that does not bind tighter. -/
theorem ReadsTier.right (h : ReadsTier vars stop (i + 1) ts a)
    (hrest : Unbound (i + 4) (lexemesOf rest)) {fuel : Nat} (hfuel : 1 + 2 * ts.length ≤ fuel) :
    parseExpr vars stop fuel (i + 4) (ts ++ rest) = .ok (a, rest) := by
  refine h (i + 4) 1 rest _ (Nat.le_refl _) (Nat.le_refl 1) (hrest.mono (by omega))
    (fun n hn => ?_) fuel hfuel
  obtain ⟨n, rfl⟩ : ∃ k, n = k + 1 := ⟨n - 1, by omega⟩
  exact parseRest_of_unbound hrest n a

theorem ReadsTier.binary (ha : ReadsTier vars stop i as a) (hb : ReadsTier vars stop (i + 1) bs b)
    {op : BinaryOp} (ht : t.lexeme = .symbol (.operator op)) (hop : op.level = i + 3) :
    ReadsTier vars stop i (as ++ t :: bs) (.binary () op a b) := by
  intro level n rest result hlevel hn hrest hresult fuel hfuel
  rw [List.length_append, List.length_cons] at hfuel
  obtain ⟨lexeme, offset⟩ := t
  obtain rfl : lexeme = _ := ht
  have hnext : Unbound (i + 4) (lexemesOf (⟨.symbol (.operator op), offset⟩ :: (bs ++ rest))) := by
    refine unbound_cons (fun k hk => ?_) _
    obtain rfl : op.level = k := Option.some.inj hk
    omega
  rw [List.append_assoc, List.cons_append]
  refine ha level (n + 2 * bs.length + 1) _ result hlevel (by omega) hnext (fun m hm => ?_) fuel
    (by omega)
  obtain ⟨m, rfl⟩ : ∃ k, m = k + 1 := ⟨m - 1, by omega⟩
  rw [parseRest, if_neg (by omega), hop, hb.right hrest (by omega)]
  exact hresult m (by omega)

theorem ReadsTier.single (h : ReadsTier vars stop 0 ts a) : ReadsExpr vars stop ts a := by
  intro level fuel rest hlevel hrest hfuel
  refine h level 1 rest _ (by omega) (Nat.le_refl 1) (hrest.mono (Nat.zero_le _)) (fun m hm => ?_)
    fuel hfuel
  obtain ⟨m, rfl⟩ : ∃ k, m = k + 1 := ⟨m - 1, by omega⟩
  exact parseRest_of_unbound (hrest.mono (Nat.zero_le _)) m a

theorem ReadsTier.conditional (hc : ReadsTier vars stop 0 cs c) (ha : ReadsExpr vars stop as a)
    (hb : ReadsExpr vars stop bs b) (ht : t.lexeme = .symbol .question)
    (hu : u.lexeme = .symbol .colon) :
    ReadsExpr vars stop (cs ++ t :: (as ++ u :: bs)) (.select () c a b) := by
  intro level fuel rest hlevel hrest hfuel
  simp only [List.length_append, List.length_cons] at hfuel
  obtain ⟨lexeme, offset⟩ := t
  obtain rfl : lexeme = _ := ht
  have hquestion : Unbound 4
      (lexemesOf (⟨.symbol .question, offset⟩ :: (as ++ u :: (bs ++ rest)))) := by
    refine unbound_cons (fun k hk => ?_) _
    obtain rfl : 1 = k := Option.some.inj hk
    decide
  have hcolon : Unbound 0 (lexemesOf (u :: (bs ++ rest))) := by
    refine unbound_cons (fun k hk => ?_) _
    rw [hu] at hk
    cases hk
  have hlist : cs ++ ⟨.symbol .question, offset⟩ :: (as ++ u :: bs) ++ rest =
      cs ++ ⟨.symbol .question, offset⟩ :: (as ++ u :: (bs ++ rest)) := by simp
  rw [hlist]
  refine hc level (2 * as.length + 2 * bs.length + 2) _ _ (by omega) (by omega) hquestion
    (fun m hm => ?_) fuel (by omega)
  obtain ⟨m, rfl⟩ : ∃ k, m = k + 2 := ⟨m - 2, by omega⟩
  rw [parseRest, if_neg (by omega), ha 0 (m + 1) _ (by omega) hcolon (by omega)]
  show (expect stop .colon (u :: (bs ++ rest)) >>= _) = _
  rw [expect_cons hu]
  show (parseExpr vars stop (m + 1) 1 (bs ++ rest) >>= _) = _
  rw [hb 1 (m + 1) rest (Nat.le_refl 1) hrest (by omega)]
  exact parseRest_of_unbound (hrest.mono (Nat.zero_le _)) m _

end

/-- The tokens are read as the category says. -/
def Category.Reads (vars : Typing) (stop : Nat) (ts : List Token) (e : Expr Unit) :
    Category → Prop
  | .operand => ReadsOperand vars stop ts e
  | .tier i => ReadsTier vars stop i ts e
  | .conditional => ReadsExpr vars stop ts e

/-- **Tokens that spell a phrase are read as the expression that the phrase denotes.** -/
theorem Derives.reads {g : Category} (h : Derives vars g p e) (hts : lexemesOf ts = p.lexemes) :
    g.Reads vars stop ts e := by
  induction h generalizing ts with
  | @name x ty hty =>
    obtain ⟨⟨lexeme, offset⟩, rfl, rfl⟩ := List.map_eq_singleton_iff.mp hts
    intro fuel rest hfuel
    obtain ⟨fuel, rfl⟩ : ∃ n, fuel = n + 1 := ⟨fuel - 1, by simp at hfuel; omega⟩
    rw [List.singleton_append, parseOperand]
    simp only [hty]
  | @literal v hex unsigned long ty hty =>
    obtain ⟨⟨lexeme, offset⟩, rfl, rfl⟩ := List.map_eq_singleton_iff.mp hts
    intro fuel rest hfuel
    obtain ⟨fuel, rfl⟩ : ∃ n, fuel = n + 1 := ⟨fuel - 1, by simp at hfuel; omega⟩
    rw [List.singleton_append, parseOperand]
    simp only [typeOfLiteral?_eq_some_iff.mpr hty]
  | signed sign _ ih =>
    obtain ⟨t, as, rfl, ht, has⟩ := List.map_eq_cons_iff.mp hts
    exact (ih has).signed sign ht
  | cast hfirst hty _ ih =>
    obtain ⟨t, more, rfl, ht, hmore⟩ := List.map_eq_cons_iff.mp hts
    obtain ⟨ws, more, rfl, hws, hmore⟩ := List.map_eq_append_iff.mp hmore
    obtain ⟨u, as, rfl, hu, has⟩ := List.map_eq_cons_iff.mp hmore
    exact (ih has).cast ht hu hws hfirst hty
  | paren ha ih =>
    obtain ⟨t, more, rfl, ht, hmore⟩ := List.map_eq_cons_iff.mp hts
    obtain ⟨as, more, rfl, has, hmore⟩ := List.map_eq_append_iff.mp hmore
    obtain ⟨u, rfl, hu⟩ := List.map_eq_singleton_iff.mp hmore
    refine (ih has).paren ht hu fun rest => ha.castType? (r := lexemesOf rest) ?_
    rw [lexemesOf, List.map_append, has]
    rfl
  | operand ha ih =>
    obtain ⟨l, ls, hls, -⟩ := ha.head
    refine (ih hts).tier ?_
    rintro rfl
    rw [hls] at hts
    cases hts
  | tighter _ _ ih => exact (ih hts).tighter
  | binary hop _ _ iha ihb =>
    obtain ⟨as, more, rfl, has, hmore⟩ := List.map_eq_append_iff.mp hts
    obtain ⟨t, bs, rfl, ht, hbs⟩ := List.map_eq_cons_iff.mp hmore
    exact (iha has).binary (ihb hbs) ht (mem_tier_iff.mp hop)
  | single _ ih => exact (ih hts).single
  | conditional _ _ _ ihc iha ihb =>
    obtain ⟨cs, more, rfl, hcs, hmore⟩ := List.map_eq_append_iff.mp hts
    obtain ⟨t, more, rfl, ht, hmore⟩ := List.map_eq_cons_iff.mp hmore
    obtain ⟨as, more, rfl, has, hmore⟩ := List.map_eq_append_iff.mp hmore
    obtain ⟨u, bs, rfl, hu, hbs⟩ := List.map_eq_cons_iff.mp hmore
    exact (ihc hcs).conditional (iha has) (ihb hbs) ht hu

/-- **Tokens are read as an expression if and only if they spell a phrase that denotes it.** -/
theorem ofTokens_eq_ok_iff :
    ofTokens vars stop ts = .ok e ↔
      ∃ p, Derives vars .conditional p e ∧ lexemesOf ts = p.lexemes := by
  constructor
  · intro h
    obtain ⟨⟨a, rest⟩, hparse, h⟩ := bind_eq_ok h
    obtain ⟨⟨p, hp, hts⟩, -⟩ := (Sound.all vars stop _).expr (Nat.zero_le _) hparse
    cases rest with
    | nil =>
      obtain rfl := Except.ok.inj h
      exact ⟨p, hp, by rw [hts]; exact List.append_nil _⟩
    | cons t rest => cases h
  · rintro ⟨p, hp, hts⟩
    have hreads : ReadsExpr vars stop ts e := hp.reads hts
    have hparse := hreads 0 (2 * ts.length + 2) [] (Nat.zero_le 1) (unbound_nil 0) (by omega)
    rw [List.append_nil] at hparse
    rw [ofTokens, hparse]
    rfl

end
end CustomIsa.Expr
