import CustomIsa.Expr.Tree
import CustomIsa.Proofs.Expr.Parsing
/-! # The leaves of a tree

What every production of the grammar keeps holds of every expression that is read from text
(`Expr.Productions.ofText`). In particular a condition on variables, constants and cast types
(`Expr.LeafRule`) holds of every node of a tree once it holds of the drafts from which the tree is
built, or of all that the reader can make of a text: declared variables whose names are words,
literals with the type of their spelling, and types that have a C name. -/
namespace CustomIsa
open CustomIsa.Expr (LeafRule)

/-! ## Nodes of an expression -/

namespace Expr
variable {α : Type} {rule : LeafRule}

theorem Obeys.of_mem_postorder {e n : Expr α} (h : e.Obeys rule) (hn : n ∈ e.postorder) :
    n.Obeys rule := by
  induction e with
  | var | const => exact List.mem_singleton.mp hn ▸ h
  | unary _ _ a ih =>
    rcases List.mem_append.mp hn with hn | hn
    · exact ih h hn
    · exact List.mem_singleton.mp hn ▸ h
  | cast _ _ a ih =>
    rcases List.mem_append.mp hn with hn | hn
    · exact ih h.2 hn
    · exact List.mem_singleton.mp hn ▸ h
  | binary _ _ a b iha ihb =>
    rcases List.mem_append.mp hn with hn | hn
    · rcases List.mem_append.mp hn with hn | hn
      · exact iha h.1 hn
      · exact ihb h.2 hn
    · exact List.mem_singleton.mp hn ▸ h
  | select _ c a b ihc iha ihb =>
    rcases List.mem_append.mp hn with hn | hn
    · rcases List.mem_append.mp hn with hn | hn
      · rcases List.mem_append.mp hn with hn | hn
        · exact ihc h.1 hn
        · exact iha h.2.1 hn
      · exact ihb h.2.2 hn
    · exact List.mem_singleton.mp hn ▸ h

/-- Numbering changes tags only. -/
theorem obeys_number {e : Expr α} (h : e.Obeys rule) (next : Nat) :
    (e.number next).1.Obeys rule := by
  induction e generalizing next with
  | var | const => exact h
  | unary _ _ a ih => exact ih h next
  | cast _ _ a ih => exact ⟨h.1, ih h.2 next⟩
  | binary _ _ a b iha ihb => exact ⟨iha h.1 next, ihb h.2 _⟩
  | select _ c a b ihc iha ihb => exact ⟨ihc h.1 next, iha h.2.1 _, ihb h.2.2 _⟩

end Expr

/-! ## Drafts -/

namespace Draft
variable {rule : LeafRule}

/-- The draft of a variable, constant or cast keeps to the rule. -/
def Obeys (rule : LeafRule) : Draft → Prop
  | .var name ty => rule.var name ty
  | .const v ty => rule.const v ty
  | .cast ty _ => rule.cast ty
  | .unary _ _ | .binary _ _ _ | .select _ _ _ => True

theorem obeys_build {nodes : List (Expr Nat)} {d : Draft} {e : Expr Nat}
    (hnodes : ∀ n ∈ nodes, n.Obeys rule) (hd : d.Obeys rule) (h : d.build? nodes = some e) :
    e.Obeys rule := by
  have hget : ∀ {i : Nat} {n : Expr Nat}, nodes[i]? = some n → n.Obeys rule :=
    fun hi => hnodes _ (List.mem_of_getElem? hi)
  cases d with
  | var | const =>
    obtain rfl := Option.some.inj h
    exact hd
  | unary op a =>
    obtain ⟨na, ha, h⟩ := Option.bind_eq_some_iff.mp h
    obtain rfl := Option.some.inj h
    show na.Obeys rule
    exact hget ha
  | cast ty a =>
    obtain ⟨na, ha, h⟩ := Option.bind_eq_some_iff.mp h
    obtain rfl := Option.some.inj h
    exact ⟨hd, hget ha⟩
  | binary op a b =>
    obtain ⟨na, ha, h⟩ := Option.bind_eq_some_iff.mp h
    obtain ⟨nb, hb, h⟩ := Option.bind_eq_some_iff.mp h
    obtain rfl := Option.some.inj h
    exact ⟨hget ha, hget hb⟩
  | select c a b =>
    obtain ⟨nc, hc, h⟩ := Option.bind_eq_some_iff.mp h
    obtain ⟨na, ha, h⟩ := Option.bind_eq_some_iff.mp h
    obtain ⟨nb, hb, h⟩ := Option.bind_eq_some_iff.mp h
    obtain rfl := Option.some.inj h
    exact ⟨hget hc, hget ha, hget hb⟩

theorem obeys_buildAll {nodes out : List (Expr Nat)} {ds : List Draft}
    (hnodes : ∀ n ∈ nodes, n.Obeys rule) (hds : ∀ d ∈ ds, d.Obeys rule)
    (h : buildAll? nodes ds = some out) : ∀ n ∈ out, n.Obeys rule := by
  induction ds generalizing nodes with
  | nil => exact Option.some.inj h ▸ hnodes
  | cons d ds ih =>
    obtain ⟨e, he, hrest⟩ := Option.bind_eq_some_iff.mp h
    refine ih (fun n hn => ?_) (fun d' hd' => hds d' (List.mem_cons_of_mem _ hd')) hrest
    rcases List.mem_append.mp hn with hn | hn
    · exact hnodes n hn
    · rw [List.mem_singleton.mp hn]
      exact obeys_build hnodes (hds d List.mem_cons_self) he

end Draft

/-! ## Text -/

namespace Expr

/-- The name is a letter or underscore, followed by letters, digits and underscores. -/
def IsWord (name : String) : Prop :=
  ∃ c more, name = String.ofList (c :: more) ∧ startsWord c = true ∧
    ∀ d ∈ more, inWord d = true

/-- All words among the tokens are words. -/
def Words (tokens : List Token) : Prop :=
  ∀ t ∈ tokens, ∀ name, t.lexeme = .word name → IsWord name

theorem isWord_of_scan {c : Char} {rest : List Char} {name : String} {more : Nat}
    (h : scan c rest = .ok (.word name, more)) : IsWord name := by
  rw [scan] at h
  split at h
  · rename_i hc
    obtain ⟨hname, -⟩ := Prod.mk.inj (Except.ok.inj h)
    refine ⟨c, rest.takeWhile inWord, (Lexeme.word.inj hname).symm, hc, fun d hd => ?_⟩
    exact List.all_eq_true.mp List.all_takeWhile d hd
  split at h
  · obtain ⟨l, hl, heq⟩ := map_eq_ok h
    rw [literal] at hl
    split at hl
    · obtain rfl := Except.ok.inj hl
      cases heq
    · cases hl
  · split at h
    · cases h
    · cases h

theorem words_lexFrom {offset : Nat} {cs : List Char} {tokens : List Token}
    (h : lexFrom offset cs = .ok tokens) : Words tokens := by
  fun_induction lexFrom offset cs generalizing tokens with
  | case1 =>
    obtain rfl := Except.ok.inj h
    intro t ht
    cases ht
  | case2 offset c rest hspace ih => exact ih h
  | case3 => cases h
  | case4 offset c rest hspace l more hscan ih =>
    obtain ⟨more', hmore, rfl⟩ := map_eq_ok h
    intro t ht name hname
    rcases List.mem_cons.mp ht with rfl | ht
    · obtain rfl : l = .word name := hname
      exact isWord_of_scan hscan
    · exact ih hmore t ht name hname

/-! ## Productions -/

/-- What is read from lexemes with property `Q` has property `P`: each way to put an expression
together keeps to it. -/
structure Productions (vars : Typing) (Q : Lexeme → Prop) (P : Expr Unit → Prop) : Prop where
  var : ∀ name ty, Q (.word name) → vars.get? name = some ty → P (.var () name ty)
  const : ∀ (v : Nat) hex unsigned long ty, Q (.integer v hex unsigned long) →
    typeOfLiteral? v hex unsigned long = some ty → P (.const () v ty)
  neg : ∀ a, P a → P (.unary () .neg a)
  not : ∀ a, Q (.symbol .complement) → P a → P (.unary () .not a)
  cast : ∀ first more ty a, Q (.word first) → vars.contains first = false →
    IntType.ofWords? (first :: more) = some ty → P a → P (.cast () ty a)
  binary : ∀ op a b, Q (.symbol (.operator op)) → P a → P b → P (.binary () op a b)
  select : ∀ c a b, Q (.symbol .question) → P c → P a → P b → P (.select () c a b)

section
variable {vars : Typing} {Q : Lexeme → Prop} {P : Expr Unit → Prop}

/-- All lexemes of the tokens have the property. -/
def AllLexemes (Q : Lexeme → Prop) (tokens : List Token) : Prop := ∀ t ∈ tokens, Q t.lexeme

/-- What a phrase denotes has the property if its lexemes have theirs. -/
theorem Productions.derives (hrule : Productions vars Q P) {g : Category} {p : Phrase}
    {e : Expr Unit} (h : Derives vars g p e) (hQ : ∀ l ∈ p.lexemes, Q l) : P e := by
  induction h with
  | name hty => exact hrule.var _ _ (hQ _ (by simp [Phrase.lexemes])) hty
  | literal hty =>
    exact hrule.const _ _ _ _ _ (hQ _ (by simp [Phrase.lexemes]))
      (typeOfLiteral?_eq_some_iff.mpr hty)
  | signed sign _ ih =>
    obtain ⟨hsign, hmore⟩ := List.forall_mem_cons.mp hQ
    have ha := ih hmore
    cases sign with
    | minus => exact hrule.neg _ ha
    | complement => exact hrule.not _ hsign ha
    | plus => exact ha
  | cast hfirst hty _ ih =>
    refine hrule.cast _ _ _ _ (hQ _ (by simp [Phrase.lexemes])) hfirst hty (ih fun l hl => ?_)
    exact hQ l (by simp [Phrase.lexemes, hl])
  | paren _ ih => exact ih fun l hl => hQ l (by simp [Phrase.lexemes, hl])
  | operand _ ih | tighter _ _ ih | single _ ih => exact ih hQ
  | binary _ _ _ iha ihb =>
    obtain ⟨hleft, hmore⟩ := List.forall_mem_append.mp hQ
    obtain ⟨hop, hright⟩ := List.forall_mem_cons.mp hmore
    exact hrule.binary _ _ _ hop (iha hleft) (ihb hright)
  | conditional _ _ _ ihc iha ihb =>
    obtain ⟨hc, hmore⟩ := List.forall_mem_append.mp hQ
    obtain ⟨hquestion, hmore⟩ := List.forall_mem_cons.mp hmore
    obtain ⟨ha, hmore⟩ := List.forall_mem_append.mp hmore
    obtain ⟨-, hb⟩ := List.forall_mem_cons.mp hmore
    exact hrule.select _ _ _ hquestion (ihc hc) (iha ha) (ihb hb)

/-- **An expression that is read from text has every property that all productions keep.** -/
theorem Productions.ofText (hrule : Productions vars Q P) {text : String} {e : Expr Unit}
    {tokens : List Token} (hlex : lex text = .ok tokens) (htokens : AllLexemes Q tokens)
    (h : Expr.ofText vars text = .ok e) : P e := by
  obtain ⟨tokens', hlex', h⟩ := bind_eq_ok h
  obtain rfl := Except.ok.inj (hlex.symm.trans hlex')
  obtain ⟨p, hp, hts⟩ := ofTokens_eq_ok_iff.mp h
  refine hrule.derives hp fun l hl => ?_
  rw [← hts] at hl
  obtain ⟨t, ht, rfl⟩ := List.mem_map.mp hl
  exact htokens t ht

end

/-- The text is made of lexemes with `Q`. -/
def Written (Q : Lexeme → Prop) (text : String) : Prop :=
  ∃ tokens, lex text = .ok tokens ∧ AllLexemes Q tokens

instance (Q : Lexeme → Prop) [DecidablePred Q] (text : String) : Decidable (Written Q text) :=
  match h : lex text with
  | .ok tokens =>
    decidable_of_iff (∀ t ∈ tokens, Q t.lexeme)
      ⟨fun hall => ⟨tokens, h, hall⟩,
        fun ⟨_, h', hall⟩ => Except.ok.inj (h'.symm.trans h) ▸ hall⟩
  | .error _ => isFalse fun ⟨_, h', _⟩ => nomatch h.symm.trans h'

/-- What the rule has to allow so that every expression read from text keeps to it. -/
structure LeafRule.Reads (rule : LeafRule) (vars : Typing) : Prop where
  var : ∀ name ty, IsWord name → vars.get? name = some ty → rule.var name ty
  const : ∀ v hex unsigned long ty, typeOfLiteral? v hex unsigned long = some ty →
    rule.const v ty
  cast : ∀ words ty, IntType.ofWords? words = some ty → rule.cast ty

theorem obeys_ofText {vars : Typing} {rule : LeafRule} (hrule : rule.Reads vars) {text : String}
    {e : Expr Unit} (h : ofText vars text = .ok e) : e.Obeys rule := by
  obtain ⟨tokens, hlex, -⟩ := bind_eq_ok h
  have hproductions : Productions vars (fun l => ∀ name, l = .word name → IsWord name)
      (·.Obeys rule) :=
    { var := fun name ty hname hty => hrule.var name ty (hname name rfl) hty
      const := fun v hex unsigned long ty _ hty => hrule.const v hex unsigned long ty hty
      neg := fun _ ha => ha
      not := fun _ _ ha => ha
      cast := fun first more ty _ _ _ hty ha => ⟨hrule.cast (first :: more) ty hty, ha⟩
      binary := fun _ _ _ _ ha hb => ⟨ha, hb⟩
      select := fun _ _ _ _ hc ha hb => ⟨hc, ha, hb⟩ }
  exact hproductions.ofText hlex (words_lexFrom hlex) h

/-- A literal is a value of the type of its spelling, which has at most 64 bits. -/
theorem proper_of_typeOfLiteral {v : Nat} {hex unsigned long : Bool} {ty : IntType}
    (h : typeOfLiteral? v hex unsigned long = some ty) : ty.Proper ∧ ty.Has v := by
  have hfits := List.find?_some h
  have hproper : ∀ ty ∈ literalTypes hex unsigned long, ty.Proper ∧ ty.bits < 127 := by
    cases hex <;> cases unsigned <;> cases long <;> decide
  obtain ⟨hty, hlt⟩ := hproper ty (List.mem_of_find?_eq_some h)
  refine ⟨hty, ?_⟩
  obtain ⟨bits, signed⟩ := ty
  cases signed with
  | true => exact (Bits.fitsSigned_iff_within hty.1 hlt).mp hfits
  | false => exact (Bits.fitsUnsigned_iff_within hlt).mp hfits

/-- A cast names one of eight types. -/
theorem mem_of_ofWords {words : List String} {ty : IntType}
    (h : IntType.ofWords? words = some ty) :
    ty ∈ [IntType.u8, .u16, .u32, .u64, .i8, .i16, .i32, .i64] := by
  unfold IntType.ofWords? at h
  split at h <;> first | (obtain rfl := Option.some.inj h; decide) | cases h

theorem proper_of_ofWords {words : List String} {ty : IntType}
    (h : IntType.ofWords? words = some ty) : ty.Proper :=
  (by decide : ∀ ty ∈ [IntType.u8, .u16, .u32, .u64, .i8, .i16, .i32, .i64], ty.Proper) ty
    (mem_of_ofWords h)

end Expr

namespace ExprTree
variable {rule : LeafRule} {t : ExprTree}

theorem obeys_ofText {vars : Typing} (hrule : rule.Reads vars) {text : String}
    (h : ofText vars text = .ok t) : ∀ n ∈ t.nodes, n.Obeys rule := by
  obtain ⟨e, he, rfl⟩ := map_eq_ok h
  intro n hn
  exact (Expr.obeys_number (Expr.obeys_ofText hrule he) 0).of_mem_postorder hn

theorem obeys_ofNodes {drafts : List Draft} {nodes : List (Expr Nat)} {root : Nat}
    (hdrafts : ∀ d ∈ drafts, d.Obeys rule) (hnodes : Draft.buildAll? [] drafts = some nodes)
    (h : ofNodes nodes root = .ok t) : ∀ n ∈ t.nodes, n.Obeys rule := by
  rw [ofNodes] at h
  split at h
  · obtain rfl := Except.ok.inj h
    exact Draft.obeys_buildAll (by simp) hdrafts hnodes
  · cases h

end ExprTree
end CustomIsa
