import CustomIsa.Expr.Parser
import CustomIsa.Proofs.Expr.Value
/-! # The grammar of expressions

An expression as it is written is a phrase (`Expr.Phrase`): parentheses and plus signs are part of
it, though they add no node to the expression it denotes. The grammar (`Expr.Derives`) says which
phrases may stand where. It has one category for each tier of binary operators, from the loosest to
the tightest, the operands below them and the conditional above.

No list of lexemes is written by two phrases (`Expr.Derives.unique`), so an expression has one
derivation at most. The reason is that each phrase is delimited: what follows it starts with a
lexeme that does not bind it. -/
namespace CustomIsa.Expr

/-! ## Phrases -/

/-- What may stand before an operand. -/
inductive Sign where
  | minus
  | complement
  | plus
  deriving Repr, DecidableEq

/-- The symbol of a sign. -/
def Sign.symbol : Sign → Symbol
  | .minus => .operator .sub
  | .complement => .complement
  | .plus => .operator .add

/-- The expression that a sign makes of its operand; a plus makes none. -/
def Sign.apply : Sign → Expr Unit → Expr Unit
  | .minus, a => .unary () .neg a
  | .complement, a => .unary () .not a
  | .plus, a => a

/-- An expression as it is written. -/
inductive Phrase where
  | name (x : String)
  | literal (value : Nat) (hex unsigned long : Bool)
  | signed (sign : Sign) (a : Phrase)
  | cast (words : List String) (a : Phrase)
  | paren (a : Phrase)
  | binary (op : BinaryOp) (a b : Phrase)
  | conditional (c a b : Phrase)
  deriving Repr, DecidableEq

/-- The lexemes of a phrase. -/
def Phrase.lexemes : Phrase → List Lexeme
  | .name x => [.word x]
  | .literal value hex unsigned long => [.integer value hex unsigned long]
  | .signed sign a => .symbol sign.symbol :: a.lexemes
  | .cast words a => .symbol .opening :: (words.map .word ++ .symbol .closing :: a.lexemes)
  | .paren a => .symbol .opening :: (a.lexemes ++ [.symbol .closing])
  | .binary op a b => a.lexemes ++ .symbol (.operator op) :: b.lexemes
  | .conditional c a b =>
    c.lexemes ++ .symbol .question :: (a.lexemes ++ .symbol .colon :: b.lexemes)

namespace Phrase

theorem cast_append (words : List String) (a : Phrase) (r : List Lexeme) :
    (cast words a).lexemes ++ r =
      .symbol .opening :: (words.map .word ++ .symbol .closing :: (a.lexemes ++ r)) := by
  simp [lexemes]

theorem paren_append (a : Phrase) (r : List Lexeme) :
    (paren a).lexemes ++ r = .symbol .opening :: (a.lexemes ++ .symbol .closing :: r) := by
  simp [lexemes]

theorem binary_append (op : BinaryOp) (a b : Phrase) (r : List Lexeme) :
    (binary op a b).lexemes ++ r = a.lexemes ++ .symbol (.operator op) :: (b.lexemes ++ r) := by
  simp [lexemes]

theorem conditional_append (c a b : Phrase) (r : List Lexeme) :
    (conditional c a b).lexemes ++ r = c.lexemes ++ .symbol .question ::
      (a.lexemes ++ .symbol .colon :: (b.lexemes ++ r)) := by
  simp [lexemes]

end Phrase

/-! ## Derivations -/

/-- The binary operators by how tightly they bind, the loosest first. -/
def tiers : List (List BinaryOp) :=
  [[.or], [.xor], [.and], [.eq, .ne], [.lt, .le, .gt, .ge], [.shl, .shr], [.add, .sub], [.mul]]

/-- The categories of the grammar; tier `i` holds the operators of `tiers` from the `i`th on. -/
inductive Category where
  | conditional
  | tier (i : Nat)
  | operand
  deriving Repr, DecidableEq

/-- The type of a literal: the first of the types of its spelling that has the value. -/
def LiteralType (value : Nat) (hex unsigned long : Bool) (ty : IntType) : Prop :=
  ∃ before after, literalTypes hex unsigned long = before ++ ty :: after ∧ ty.Has value ∧
    ∀ other ∈ before, ¬other.Has value

/-- The phrase belongs to the category and denotes the expression. An operator stands between a
phrase of its own tier and one of the next, so it groups to the left; the last part of a conditional
may be a conditional, so that groups to the right. -/
inductive Derives (vars : Typing) : Category → Phrase → Expr Unit → Prop
  | name {x : String} {ty : IntType} (hty : vars.get? x = some ty) :
    Derives vars .operand (.name x) (.var () x ty)
  | literal {v : Nat} {hex unsigned long : Bool} {ty : IntType}
    (hty : LiteralType v hex unsigned long ty) :
    Derives vars .operand (.literal v hex unsigned long) (.const () v ty)
  | signed {p : Phrase} {a : Expr Unit} (sign : Sign) (ha : Derives vars .operand p a) :
    Derives vars .operand (.signed sign p) (sign.apply a)
  | cast {first : String} {more : List String} {ty : IntType} {p : Phrase} {a : Expr Unit}
    (hfirst : vars.contains first = false) (hty : IntType.ofWords? (first :: more) = some ty)
    (ha : Derives vars .operand p a) :
    Derives vars .operand (.cast (first :: more) p) (.cast () ty a)
  | paren {p : Phrase} {a : Expr Unit} (ha : Derives vars .conditional p a) :
    Derives vars .operand (.paren p) a
  | operand {p : Phrase} {a : Expr Unit} (ha : Derives vars .operand p a) :
    Derives vars (.tier tiers.length) p a
  | tighter {i : Nat} {p : Phrase} {a : Expr Unit} (hi : i < tiers.length)
    (ha : Derives vars (.tier (i + 1)) p a) : Derives vars (.tier i) p a
  | binary {i : Nat} {op : BinaryOp} {p q : Phrase} {a b : Expr Unit}
    (hop : op ∈ tiers.getD i []) (ha : Derives vars (.tier i) p a)
    (hb : Derives vars (.tier (i + 1)) q b) :
    Derives vars (.tier i) (.binary op p q) (.binary () op a b)
  | single {p : Phrase} {a : Expr Unit} (ha : Derives vars (.tier 0) p a) :
    Derives vars .conditional p a
  | conditional {p q r : Phrase} {c a b : Expr Unit} (hc : Derives vars (.tier 0) p c)
    (ha : Derives vars .conditional q a) (hb : Derives vars .conditional r b) :
    Derives vars .conditional (.conditional p q r) (.select () c a b)

theorem exists_tier (op : BinaryOp) : ∃ i < tiers.length, op.level = i + 3 := by
  cases op <;> decide

theorem mem_tier_iff {op : BinaryOp} {i : Nat} : op ∈ tiers.getD i [] ↔ op.level = i + 3 := by
  match i with
  | 0 | 1 | 2 | 3 | 4 | 5 | 6 | 7 => cases op <;> decide
  | i + 8 =>
    obtain ⟨j, hj, hlevel⟩ := exists_tier op
    have hj : j < 8 := hj
    exact ⟨fun h => (nomatch h), fun h => by omega⟩

section
variable {vars : Typing} {g : Category} {p q : Phrase} {a b : Expr Unit} {r s : List Lexeme}

/-- A phrase has a first lexeme, and if that is a word then it is a declared variable. -/
theorem Derives.head (h : Derives vars g p a) :
    ∃ l ls, p.lexemes = l :: ls ∧ ∀ x, l = .word x → vars.contains x = true := by
  induction h with
  | @name x ty hty =>
    refine ⟨.word x, [], rfl, fun y hy => ?_⟩
    rw [← Lexeme.word.inj hy, NameMap.contains, hty]
    rfl
  | literal | signed | cast | paren => exact ⟨_, _, rfl, fun x hx => (nomatch hx)⟩
  | operand _ ih | tighter _ _ ih | single _ ih => exact ih
  | binary _ _ _ ih | conditional _ _ _ ih =>
    obtain ⟨l, ls, hls, hdeclared⟩ := ih
    exact ⟨l, _, by rw [Phrase.lexemes, hls, List.cons_append], hdeclared⟩

theorem Derives.contains_of_head (h : Derives vars g p a) {x : String}
    (heq : p.lexemes ++ r = .word x :: s) : vars.contains x = true := by
  obtain ⟨l, ls, hls, hdeclared⟩ := h.head
  rw [hls] at heq
  exact hdeclared x (List.cons.inj heq).1

/-! ## What may follow a phrase -/

/-- How tightly a lexeme binds the phrase before it; most lexemes do not. -/
def bindingLevel? : Lexeme → Option Nat
  | .symbol .question => some 1
  | .symbol (.operator op) => some op.level
  | _ => none

theorem bindingLevel?_eq_some {l : Lexeme} {k : Nat} (h : bindingLevel? l = some k) :
    (l = .symbol .question ∧ k = 1) ∨ ∃ op, l = .symbol (.operator op) ∧ k = op.level := by
  unfold bindingLevel? at h
  split at h
  · exact .inl ⟨rfl, (Option.some.inj h).symm⟩
  · exact .inr ⟨_, rfl, (Option.some.inj h).symm⟩
  · cases h

/-- The lexemes do not bind a phrase before them at the level or above. -/
def Unbound (level : Nat) (ls : List Lexeme) : Prop :=
  ∀ l more, ls = l :: more → ∀ k, bindingLevel? l = some k → k < level

theorem Unbound.mono {level level' : Nat} (h : Unbound level r) (hle : level ≤ level') :
    Unbound level' r :=
  fun l more hl k hk => Nat.lt_of_lt_of_le (h l more hl k hk) hle

theorem unbound_nil (level : Nat) : Unbound level [] := fun _ _ h => (nomatch h)

theorem unbound_cons {level : Nat} {l : Lexeme} (h : ∀ k, bindingLevel? l = some k → k < level)
    (ls : List Lexeme) : Unbound level (l :: ls) := by
  intro l' more heq
  obtain ⟨rfl, -⟩ := List.cons.inj heq
  exact h

/-- A conditional binds at the lowest level. -/
theorem Unbound.zero (h : Unbound 1 r) : Unbound 0 r := by
  intro l more hl k hk
  have hlt := h l more hl k hk
  obtain ⟨-, rfl⟩ | ⟨op, -, rfl⟩ := bindingLevel?_eq_some hk
  · exact absurd hlt (Nat.lt_irrefl 1)
  · obtain ⟨j, -, hlevel⟩ := exists_tier op
    omega

/-- Nothing binds above the tightest tier. -/
theorem unbound_tightest (ls : List Lexeme) : Unbound (tiers.length + 3) ls := by
  intro l more _ k hk
  obtain ⟨-, rfl⟩ | ⟨op, -, rfl⟩ := bindingLevel?_eq_some hk
  · decide
  · obtain ⟨j, hj, hlevel⟩ := exists_tier op
    omega

/-- Operands are bound by every operator. -/
def Category.level : Category → Nat
  | .conditional => 0
  | .tier i => i + 3
  | .operand => 11

/-! ## One derivation at most -/

/-- Up to inputs of length `n`, a phrase of the category is determined by the lexemes that start
with it. -/
def Determined (vars : Typing) (n : Nat) (g : Category) : Prop :=
  ∀ ⦃p q : Phrase⦄ ⦃a b : Expr Unit⦄ ⦃r s : List Lexeme⦄, Derives vars g p a → Derives vars g q b →
    (p.lexemes ++ r).length ≤ n → Unbound g.level r → Unbound g.level s →
    p.lexemes ++ r = q.lexemes ++ s → p = q ∧ r = s

theorem words_unique {ws ws' : List String}
    (h : ws.map Lexeme.word ++ .symbol .closing :: r =
      ws'.map Lexeme.word ++ .symbol .closing :: s) : ws = ws' ∧ r = s := by
  induction ws generalizing ws' with
  | nil =>
    cases ws' with
    | nil => exact ⟨rfl, (List.cons.inj h).2⟩
    | cons w ws' => cases (List.cons.inj h).1
  | cons w ws ih =>
    cases ws' with
    | nil => cases (List.cons.inj h).1
    | cons w' ws' =>
      obtain ⟨hw, htail⟩ := List.cons.inj h
      obtain ⟨rfl, hr⟩ := ih htail
      exact ⟨by rw [Lexeme.word.inj hw], hr⟩

theorem Sign.symbol_injective {sign sign' : Sign} (h : sign.symbol = sign'.symbol) :
    sign = sign' := by
  cases sign <;> cases sign' <;> first | rfl | cases h

/-- An operand starts with the lexeme that says of which kind it is. -/
theorem determined_operand {n : Nat} (hoperand : Determined vars n .operand)
    (hconditional : Determined vars n .conditional) : Determined vars (n + 1) .operand := by
  intro p q a b r s hp hq hlen hr hs heq
  cases hp with
  | name =>
    cases hq with
    | name =>
      obtain ⟨hword, htail⟩ := List.cons.inj heq
      exact ⟨by rw [Lexeme.word.inj hword], htail⟩
    | literal | signed | cast | paren => cases (List.cons.inj heq).1
  | literal =>
    cases hq with
    | literal =>
      obtain ⟨hinteger, htail⟩ := List.cons.inj heq
      obtain ⟨rfl, rfl, rfl, rfl⟩ := Lexeme.integer.inj hinteger
      exact ⟨rfl, htail⟩
    | name | signed | cast | paren => cases (List.cons.inj heq).1
  | @signed p a sign ha =>
    cases hq with
    | signed sign' hb =>
      obtain ⟨hsign, htail⟩ := List.cons.inj heq
      obtain rfl := Sign.symbol_injective (Lexeme.symbol.inj hsign)
      obtain ⟨rfl, hrest⟩ := hoperand ha hb (by simpa [Phrase.lexemes] using hlen) hr hs htail
      exact ⟨rfl, hrest⟩
    | name | literal => cases (List.cons.inj heq).1
    | cast | paren => cases sign <;> cases (List.cons.inj heq).1
  | cast hfirst _ ha =>
    rw [Phrase.cast_append] at heq hlen
    cases hq with
    | cast hfirst' _ hb =>
      rw [Phrase.cast_append] at heq
      obtain ⟨hwords, htail⟩ := words_unique (List.cons.inj heq).2
      simp only [List.length_cons, List.length_append] at hlen
      obtain ⟨rfl, hrest⟩ := hoperand ha hb (by rw [List.length_append]; omega) hr hs htail
      exact ⟨by rw [hwords], hrest⟩
    | paren hb =>
      -- the first word of a cast is no variable, so no phrase in parentheses starts with it
      rw [Phrase.paren_append] at heq
      rw [hb.contains_of_head (List.cons.inj heq).2.symm] at hfirst
      cases hfirst
    | signed sign => cases sign <;> cases (List.cons.inj heq).1
    | name | literal => cases (List.cons.inj heq).1
  | paren ha =>
    rw [Phrase.paren_append] at heq hlen
    cases hq with
    | paren hb =>
      rw [Phrase.paren_append] at heq
      have hclosed : ∀ ls, Unbound 0 (.symbol .closing :: ls) :=
        unbound_cons fun k hk => (nomatch hk)
      obtain ⟨rfl, hrest⟩ := hconditional ha hb (Nat.le_of_succ_le_succ hlen) (hclosed r)
        (hclosed s) (List.cons.inj heq).2
      exact ⟨rfl, (List.cons.inj hrest).2⟩
    | cast hfirst _ hb =>
      rw [Phrase.cast_append] at heq
      rw [ha.contains_of_head (List.cons.inj heq).2] at hfirst
      cases hfirst
    | signed sign => cases sign <;> cases (List.cons.inj heq).1
    | name | literal => cases (List.cons.inj heq).1

/-! ## Chains

The phrases of a tier are chains: a phrase of the next tier, and then operators of the tier, each
with its right operand. -/

/-- The phrase of a chain, grouped to the left. -/
def Phrase.chain (first : Phrase) (links : List (BinaryOp × Phrase)) : Phrase :=
  links.foldl (fun a link => .binary link.1 a link.2) first

/-- The lexemes of the links of a chain. -/
def linkLexemes (links : List (BinaryOp × Phrase)) : List Lexeme :=
  links.flatMap fun link => .symbol (.operator link.1) :: link.2.lexemes

theorem linkLexemes_cons_append (link : BinaryOp × Phrase) (links : List (BinaryOp × Phrase))
    (r : List Lexeme) : linkLexemes (link :: links) ++ r =
      .symbol (.operator link.1) :: (link.2.lexemes ++ (linkLexemes links ++ r)) := by
  simp [linkLexemes]

theorem Phrase.lexemes_chain (first : Phrase) (links : List (BinaryOp × Phrase)) :
    (first.chain links).lexemes = first.lexemes ++ linkLexemes links := by
  induction links generalizing first with
  | nil => exact (List.append_nil _).symm
  | cons link links ih =>
    show ((binary link.1 first link.2).chain links).lexemes = _
    rw [ih]
    simp [linkLexemes, lexemes]

/-- The links have operators of tier `i` and operands of the next. -/
def Links (vars : Typing) (i : Nat) (links : List (BinaryOp × Phrase)) : Prop :=
  ∀ link ∈ links, link.1 ∈ tiers.getD i [] ∧ ∃ b, Derives vars (.tier (i + 1)) link.2 b

theorem Derives.chain {i : Nat} (h : Derives vars (.tier i) p a) (hi : i < tiers.length) :
    ∃ first links, p = first.chain links ∧ (∃ b, Derives vars (.tier (i + 1)) first b) ∧
      Links vars i links := by
  generalize hg : Category.tier i = g at h
  induction h with
  | name | literal | signed | cast | paren | single | conditional => cases hg
  | operand =>
    cases hg
    exact absurd hi (Nat.lt_irrefl _)
  | @tighter j p a _ ha =>
    cases hg
    exact ⟨p, [], rfl, ⟨a, ha⟩, fun link hlink => (nomatch hlink)⟩
  | @binary j op p q a b hop _ hb ih =>
    cases hg
    obtain ⟨first, links, rfl, hfirst, hlinks⟩ := ih rfl
    refine ⟨first, links ++ [(op, q)], ?_, hfirst, fun link hlink => ?_⟩
    · rw [Phrase.chain, Phrase.chain, List.foldl_append]
      rfl
    · rcases List.mem_append.mp hlink with hlink | hlink
      · exact hlinks link hlink
      · rw [List.mem_singleton.mp hlink]
        exact ⟨hop, b, hb⟩

section
variable {n i : Nat} {links links' : List (BinaryOp × Phrase)}

/-- A link binds what stands before it, but at the level of its tier only. -/
theorem unbound_linkLexemes (h : Links vars i links) (hr : Unbound (i + 3) r) :
    Unbound (i + 4) (linkLexemes links ++ r) := by
  cases links with
  | nil => exact hr.mono (Nat.le_succ _)
  | cons link links =>
    rw [linkLexemes_cons_append]
    refine unbound_cons (fun k hk => ?_) _
    have hlevel := mem_tier_iff.mp (h link List.mem_cons_self).1
    have hk : link.1.level = k := Option.some.inj hk
    omega

theorem Links.not_unbound {link : BinaryOp × Phrase} (h : Links vars i (link :: links)) :
    ¬Unbound (i + 3) (linkLexemes (link :: links) ++ r) := by
  rw [linkLexemes_cons_append]
  intro hunbound
  have hlt : link.1.level < i + 3 := hunbound _ _ rfl _ rfl
  have hlevel := mem_tier_iff.mp (h link List.mem_cons_self).1
  omega

/-- Two chains on one input agree link by link: one that ended earlier would be bound by the next
link of the other. -/
theorem chain_unique (ih : Determined vars n (.tier (i + 1)))
    (hp : Derives vars (.tier (i + 1)) p a) (hq : Derives vars (.tier (i + 1)) q b)
    (hlinks : Links vars i links) (hlinks' : Links vars i links')
    (hr : Unbound (i + 3) r) (hs : Unbound (i + 3) s)
    (hlen : (p.lexemes ++ (linkLexemes links ++ r)).length ≤ n)
    (heq : p.lexemes ++ (linkLexemes links ++ r) = q.lexemes ++ (linkLexemes links' ++ s)) :
    p = q ∧ links = links' ∧ r = s := by
  induction links generalizing p q a b links' with
  | nil =>
    obtain ⟨rfl, hrest⟩ := ih hp hq hlen (unbound_linkLexemes hlinks hr)
      (unbound_linkLexemes hlinks' hs) heq
    cases links' with
    | nil => exact ⟨rfl, rfl, hrest⟩
    | cons link' links' =>
      have hr : Unbound (i + 3) (linkLexemes [] ++ r) := hr
      rw [hrest] at hr
      exact absurd hr hlinks'.not_unbound
  | cons link links ihlinks =>
    obtain ⟨rfl, hrest⟩ := ih hp hq hlen (unbound_linkLexemes hlinks hr)
      (unbound_linkLexemes hlinks' hs) heq
    cases links' with
    | nil =>
      have hs : Unbound (i + 3) (linkLexemes [] ++ s) := hs
      rw [← hrest] at hs
      exact absurd hs hlinks.not_unbound
    | cons link' links' =>
      rw [linkLexemes_cons_append] at hlen hrest
      rw [linkLexemes_cons_append] at hrest
      obtain ⟨hop, htail⟩ := List.cons.inj hrest
      obtain ⟨⟨_, c, hc⟩, hmore⟩ := List.forall_mem_cons.mp hlinks
      obtain ⟨⟨_, d, hd⟩, hmore'⟩ := List.forall_mem_cons.mp hlinks'
      rw [List.length_append, List.length_cons] at hlen
      obtain ⟨hnext, rfl, hends⟩ := ihlinks hc hd hmore hmore' (by omega) htail
      have hlink : link = link' :=
        Prod.ext (Symbol.operator.inj (Lexeme.symbol.inj hop)) hnext
      exact ⟨rfl, by rw [hlink], hends⟩

theorem determined_tier (hi : i < tiers.length) (ih : Determined vars n (.tier (i + 1))) :
    Determined vars n (.tier i) := by
  intro p q a b r s hp hq hlen hr hs heq
  obtain ⟨first, links, rfl, ⟨c, hfirst⟩, hlinks⟩ := hp.chain hi
  obtain ⟨first', links', rfl, ⟨d, hfirst'⟩, hlinks'⟩ := hq.chain hi
  rw [Phrase.lexemes_chain, List.append_assoc] at hlen heq
  rw [Phrase.lexemes_chain, List.append_assoc] at heq
  obtain ⟨rfl, rfl, hrest⟩ := chain_unique ih hfirst hfirst' hlinks hlinks' hr hs hlen heq
  exact ⟨rfl, hrest⟩

theorem Derives.of_tightest (h : Derives vars (.tier tiers.length) p a) :
    Derives vars .operand p a := by
  cases h with
  | operand ha => exact ha
  | tighter hi => exact absurd hi (Nat.lt_irrefl _)
  | binary hop => cases hop

/-- From the operands, which are the tightest tier, to the loosest. -/
theorem determined_tiers (h : Determined vars n .operand) (hi : i ≤ tiers.length) :
    Determined vars n (.tier i) := by
  induction hi using Nat.decreasingInduction with
  | self =>
    intro p q a b r s hp hq hlen hr hs heq
    exact h hp.of_tightest hq.of_tightest hlen hr hs heq
  | of_succ i hi ih => exact determined_tier hi ih

/-! ## Conditionals -/

theorem determined_conditional (htier : Determined vars (n + 1) (.tier 0))
    (ih : Determined vars n .conditional) : Determined vars (n + 1) .conditional := by
  intro p q a b r s hp hq hlen hr hs heq
  have hquestion : ∀ ls, Unbound 3 (.symbol .question :: ls) :=
    unbound_cons fun k hk => by
      obtain rfl : 1 = k := Option.some.inj hk
      decide
  have hcolon : ∀ ls, Unbound 0 (.symbol .colon :: ls) := unbound_cons fun k hk => (nomatch hk)
  have hopen : ∀ {t ls}, Unbound 0 t → t ≠ .symbol .question :: ls := by
    rintro t ls ht rfl
    exact Nat.not_lt_zero 1 (ht _ _ rfl 1 rfl)
  have hr3 : Unbound 3 r := hr.mono (Nat.zero_le 3)
  have hs3 : Unbound 3 s := hs.mono (Nat.zero_le 3)
  cases hp with
  | single hp =>
    cases hq with
    | single hq => exact htier hp hq hlen hr3 hs3 heq
    | conditional hc =>
      rw [Phrase.conditional_append] at heq
      exact absurd (htier hp hc hlen hr3 (hquestion _) heq).2 (hopen hr)
  | conditional hc ha hb =>
    rw [Phrase.conditional_append] at hlen heq
    cases hq with
    | single hq => exact absurd (htier hc hq hlen (hquestion _) hs3 heq).2.symm (hopen hs)
    | conditional hc' ha' hb' =>
      rw [Phrase.conditional_append] at heq
      obtain ⟨rfl, hmore⟩ := htier hc hc' hlen (hquestion _) (hquestion _) heq
      simp only [List.length_append, List.length_cons] at hlen
      obtain ⟨rfl, hafter⟩ := ih ha ha'
        (by simp only [List.length_append, List.length_cons]; omega) (hcolon _) (hcolon _)
        (List.cons.inj hmore).2
      obtain ⟨rfl, hrest⟩ := ih hb hb' (by rw [List.length_append]; omega) hr hs
        (List.cons.inj hafter).2
      exact ⟨rfl, hrest⟩

end

/-- Operands and conditionals contain each other, so the induction is on the length of the input. -/
theorem determined (n : Nat) :
    Determined vars n .operand ∧ Determined vars n .conditional := by
  induction n with
  | zero =>
    have hnone : ∀ g, Determined vars 0 g := by
      intro g p q a b r s hp _ hlen
      obtain ⟨l, ls, hls, -⟩ := hp.head
      rw [hls] at hlen
      exact absurd hlen (Nat.not_succ_le_zero _)
    exact ⟨hnone .operand, hnone .conditional⟩
  | succ n ih =>
    have hoperand := determined_operand ih.1 ih.2
    exact ⟨hoperand, determined_conditional (determined_tiers hoperand (Nat.zero_le _)) ih.2⟩

/-- **No list of lexemes is written by two phrases.** -/
theorem Derives.unique (hp : Derives vars .conditional p a) (hq : Derives vars .conditional q b)
    (h : p.lexemes = q.lexemes) : p = q := by
  have hinput : p.lexemes ++ [] = q.lexemes ++ [] := by rw [h]
  exact ((determined _).2 hp hq (Nat.le_refl _) (unbound_nil 0) (unbound_nil 0) hinput).1

end
end CustomIsa.Expr
