import CustomIsa.Proofs.Expr.Tree
/-! # Linear expressions

Sums and differences of variables of one type and of small literals. A linear expression stands for
an integer combination of its variables (`Expr.coefficient`) plus a constant (`Expr.constantPart`).
A text of declared variables, plain decimal literals, signs and parentheses is read as a linear
expression (`ExprTree.linear_ofText`). -/
namespace CustomIsa
namespace IntType

theorem promoted_of_bits {ty : IntType} (h : ty.bits = 32) : ty.promoted = ty := by
  simp [promoted, h]

theorem common_of_bits {a b : IntType} (ha : a.bits = 32) (hb : b.bits = 32) :
    a.common b = ⟨32, a.signed && b.signed⟩ := by
  simp [common, promoted_of_bits, ha, hb]

theorem proper_of_bits {ty : IntType} (h : ty.bits = 32) : ty.Proper := by
  rw [Proper, h]
  decide

end IntType

namespace Expr
variable {α : Type} {ty : IntType}

/-- The expression is made of variables of type `ty` and of literals below `2 ^ 31`, by addition,
subtraction and negation. -/
def Linear (ty : IntType) : Expr α → Prop
  | .var _ _ vty => vty = ty
  | .const _ v cty => cty = .i32 ∧ 0 ≤ v ∧ v < 2 ^ 31
  | .unary _ op a => op = .neg ∧ a.Linear ty
  | .binary _ op a b => (op = .add ∨ op = .sub) ∧ a.Linear ty ∧ b.Linear ty
  | .cast _ _ _ | .select _ _ _ _ => False

/-- How often a variable is added, less how often it is subtracted. -/
def coefficient (name : String) : Expr α → Int
  | .var _ other _ => if other = name then 1 else 0
  | .unary _ .neg a => -a.coefficient name
  | .binary _ .add a b => a.coefficient name + b.coefficient name
  | .binary _ .sub a b => a.coefficient name - b.coefficient name
  | _ => 0

/-- What the literals add up to. -/
def constantPart : Expr α → Int
  | .const _ v _ => v
  | .unary _ .neg a => -a.constantPart
  | .binary _ .add a b => a.constantPart + b.constantPart
  | .binary _ .sub a b => a.constantPart - b.constantPart
  | _ => 0

/-- No variable occurs in the expression. -/
def Closed : Expr α → Prop
  | .var _ _ _ => False
  | .const _ _ _ => True
  | .unary _ _ a | .cast _ _ a => a.Closed
  | .binary _ _ a b => a.Closed ∧ b.Closed
  | .select _ c a b => c.Closed ∧ a.Closed ∧ b.Closed

theorem coefficient_of_closed {e : Expr α} (h : e.Closed) (name : String) :
    e.coefficient name = 0 := by
  induction e with
  | var => cases h
  | const | cast | select => rfl
  | unary tag op a ih =>
    cases op with
    | neg =>
      rw [coefficient, ih h]
      rfl
    | not => rfl
  | binary tag op a b iha ihb =>
    unfold coefficient
    split <;> simp_all [Closed]

/-! ## Types -/

/-- A linear expression has no variables and computes in `i32`, or it computes in the type of its
variables. -/
theorem Linear.ty_eq {e : Expr α} (hbits : ty.bits = 32) (h : e.Linear ty) :
    e.Closed ∧ e.ty = .i32 ∨ ¬e.Closed ∧ e.ty = ty := by
  induction e with
  | var => exact .inr ⟨id, h⟩
  | const => exact .inl ⟨trivial, h.1⟩
  | cast | select => cases h
  | unary tag op a ih =>
    rcases ih h.2 with ⟨hclosed, hty⟩ | ⟨hopen, hty⟩
    · exact .inl ⟨hclosed, by rw [Expr.ty, hty]; rfl⟩
    · exact .inr ⟨hopen, by rw [Expr.ty, hty, IntType.promoted_of_bits hbits]⟩
  | binary tag op a b iha ihb =>
    obtain ⟨hop, ha, hb⟩ := h
    have hresult : (Expr.binary tag op a b).ty = a.ty.common b.ty := by
      rcases hop with rfl | rfl <;> rfl
    -- the other type does not count beside `i32`, which is signed and as wide
    obtain ⟨bits, signed⟩ := ty
    obtain rfl : bits = 32 := hbits
    rw [hresult]
    rcases iha ha with ⟨hca, hta⟩ | ⟨hoa, hta⟩ <;> rcases ihb hb with ⟨hcb, htb⟩ | ⟨hob, htb⟩ <;>
      rw [hta, htb, IntType.common_of_bits rfl rfl]
    · exact .inl ⟨⟨hca, hcb⟩, rfl⟩
    · exact .inr ⟨fun hc => hob hc.2, by simp [IntType.i32]⟩
    · exact .inr ⟨fun hc => hoa hc.1, by simp [IntType.i32]⟩
    · exact .inr ⟨fun hc => hoa hc.1, by simp⟩

theorem Linear.ty_of_closed {e : Expr α} (hbits : ty.bits = 32) (h : e.Linear ty)
    (hclosed : e.Closed) : e.ty = .i32 :=
  ((h.ty_eq hbits).resolve_right fun hopen => hopen.1 hclosed).2

theorem Linear.ty_of_open {e : Expr α} (hbits : ty.bits = 32) (h : e.Linear ty)
    (hopen : ¬e.Closed) : e.ty = ty :=
  ((h.ty_eq hbits).resolve_left fun hclosed => hopen hclosed.1).2

theorem Linear.bits_ty {e : Expr α} (hbits : ty.bits = 32) (h : e.Linear ty) : e.ty.bits = 32 := by
  by_cases hclosed : e.Closed
  · rw [h.ty_of_closed hbits hclosed]
    rfl
  · rw [h.ty_of_open hbits hclosed, hbits]

/-! ## Text -/

/-- The lexeme is a variable declared with type `ty`, a plain decimal literal below `2 ^ 31`, a sign
or a parenthesis. -/
def Lexeme.OfLinear (vars : Typing) (ty : IntType) : Lexeme → Prop
  | .word name => vars.get? name = some ty
  | .integer v hex unsigned long =>
    v < 2 ^ 31 ∧ hex = false ∧ unsigned = false ∧ long = false
  | .symbol s => s ∈ [.operator .add, .operator .sub, .opening, .closing]

instance (vars : Typing) (ty : IntType) : DecidablePred (Lexeme.OfLinear vars ty)
  | .word name => inferInstanceAs (Decidable (vars.get? name = some ty))
  | .integer v hex unsigned long =>
    inferInstanceAs (Decidable (v < 2 ^ 31 ∧ hex = false ∧ unsigned = false ∧ long = false))
  | .symbol s =>
    inferInstanceAs (Decidable (s ∈ [.operator .add, .operator .sub, .opening, .closing]))

theorem typeOfLiteral_of_lt {v : Nat} (h : v < 2 ^ 31) :
    typeOfLiteral? v false false false = some .i32 := by
  have hfits : Bits.fitsSigned v 32 = true := by
    simp only [Bits.fitsSigned, Bool.and_eq_true, Bool.or_eq_true, decide_eq_true_iff]
    omega
  simp [typeOfLiteral?, literalTypes, IntType.i32, hfits]

theorem productions_linear (vars : Typing) (ty : IntType) :
    Productions vars (Lexeme.OfLinear vars ty) (Linear ty) where
  var name vty hname hty := Option.some.inj (hty.symm.trans hname)
  const v hex unsigned long cty hv hty := by
    obtain ⟨hlt, rfl, rfl, rfl⟩ := hv
    rw [typeOfLiteral_of_lt hlt] at hty
    exact ⟨(Option.some.inj hty).symm, Int.natCast_nonneg v, by exact_mod_cast hlt⟩
  neg a ha := ⟨rfl, ha⟩
  not a hsymbol := by simp [Lexeme.OfLinear] at hsymbol
  cast first more cty a hfirst hnew := by
    have hget : vars.get? first = some ty := hfirst
    simp [NameMap.contains, hget] at hnew
  binary op a b hsymbol ha hb := ⟨by simpa [Lexeme.OfLinear] using hsymbol, ha, hb⟩
  select c a b hsymbol := by simp [Lexeme.OfLinear] at hsymbol

theorem Linear.number {e : Expr α} (h : e.Linear ty) (next : Nat) :
    (e.number next).1.Linear ty := by
  induction e generalizing next with
  | var | const => exact h
  | cast | select => exact h
  | unary tag op a ih => exact ⟨h.1, ih h.2 next⟩
  | binary tag op a b iha ihb => exact ⟨h.1, iha h.2.1 next, ihb h.2.2 _⟩

end Expr

namespace ExprTree
open CustomIsa.Expr

/-- The text is written with variables of type `ty`, plain decimal literals below `2 ^ 31`, signs
and parentheses only. -/
def WrittenLinear (vars : Typing) (ty : IntType) (text : String) : Prop :=
  ∃ tokens, lex text = .ok tokens ∧ AllLexemes (Lexeme.OfLinear vars ty) tokens

instance (vars : Typing) (ty : IntType) (text : String) : Decidable (WrittenLinear vars ty text) :=
  inferInstanceAs (Decidable (Written (Lexeme.OfLinear vars ty) text))

/-- **A text of variables, plain literals, signs and parentheses is read as a linear expression**:
where all words are declared variables, no parentheses are a cast. -/
theorem linear_ofText {vars : Typing} {ty : IntType} {text : String} {t : ExprTree}
    (hwritten : WrittenLinear vars ty text) (h : ofText vars text = .ok t) : t.root.Linear ty := by
  obtain ⟨tokens, hlex, htokens⟩ := hwritten
  obtain ⟨e, he, rfl⟩ := map_eq_ok h
  exact ((productions_linear vars ty).ofText hlex htokens he).number 0

end ExprTree
end CustomIsa
