import CustomIsa.Expr.Tree
import CustomIsa.Proofs.Expr.Lexing
import CustomIsa.Proofs.Expr.Parsing
/-! # The language of expressions

A text is read if and only if it has a derivation (`Expr.ofText_eq_ok_iff`): it is cut into lexemes
that spell a phrase. The derivation is the only one (`Expr.Derivation.unique`), and the nodes of the
tree have the types that the rules of arithmetic give (`Expr.HasType`): these are stated here by
what the width and the sign of a result are. -/
namespace CustomIsa

/-! ## Types of nodes -/

namespace IntType

/-- Promotion: at least 32 bits, with the sign kept. -/
structure Promotes (a ty : IntType) : Prop where
  bits : ty.bits = max 32 a.bits
  signed : ty.signed = a.signed

/-- The type in which two operands meet: at least 32 bits and as wide as the wider one, and signed
if each operand is that has this width after its promotion. -/
structure Converts (a b ty : IntType) : Prop where
  bits : ty.bits = max 32 (max a.bits b.bits)
  signed : ty.signed = true ↔
    (max 32 a.bits = ty.bits → a.signed = true) ∧ (max 32 b.bits = ty.bits → b.signed = true)

variable {a b ty : IntType}

theorem eq_of_bits_of_signed (hbits : a.bits = b.bits) (hsigned : a.signed = b.signed) : a = b := by
  cases a
  cases b
  cases hbits
  cases hsigned
  rfl

theorem promotes_promoted (a : IntType) : a.Promotes a.promoted := by
  rw [promoted]
  split
  · exact ⟨by simp only; omega, rfl⟩
  · exact ⟨by omega, rfl⟩

theorem promotes_iff : a.Promotes ty ↔ ty = a.promoted := by
  constructor
  · intro h
    have hp := promotes_promoted a
    exact eq_of_bits_of_signed (h.bits.trans hp.bits.symm) (h.signed.trans hp.signed.symm)
  · rintro rfl
    exact promotes_promoted a

theorem converts_common (a b : IntType) : a.Converts b (a.common b) := by
  have ha := promotes_promoted a
  have hb := promotes_promoted b
  unfold common
  simp only
  split
  · rename_i hlt
    rw [ha.bits, hb.bits] at hlt
    refine ⟨by rw [ha.bits]; omega, ?_⟩
    rw [ha.signed, ha.bits]
    exact ⟨fun h => ⟨fun _ => h, fun h => by omega⟩, fun h => h.1 rfl⟩
  · split
    · rename_i hlt
      rw [ha.bits, hb.bits] at hlt
      refine ⟨by rw [hb.bits]; omega, ?_⟩
      rw [hb.signed, hb.bits]
      exact ⟨fun h => ⟨fun h => by omega, fun _ => h⟩, fun h => h.2 rfl⟩
    · rename_i hle hge
      rw [ha.bits, hb.bits] at hle hge
      refine ⟨by simp only [ha.bits]; omega, ?_⟩
      simp only [ha.signed, hb.signed, ha.bits, Bool.and_eq_true]
      exact ⟨fun h => ⟨fun _ => h.1, fun _ => h.2⟩, fun h => ⟨h.1 trivial, h.2 (by omega)⟩⟩

theorem converts_iff : a.Converts b ty ↔ ty = a.common b := by
  constructor
  · intro h
    have hc := converts_common a b
    have hbits : ty.bits = (a.common b).bits := h.bits.trans hc.bits.symm
    refine eq_of_bits_of_signed hbits (Bool.eq_iff_iff.mpr (h.signed.trans ?_))
    rw [hbits]
    exact hc.signed.symm
  · rintro rfl
    exact converts_common a b

end IntType

namespace Expr
variable {α : Type}

/-- The rules for the type in which an expression is computed. -/
inductive HasType : Expr α → IntType → Prop
  | var (tag : α) (name : String) (ty : IntType) : HasType (.var tag name ty) ty
  | const (tag : α) (v : Int) (ty : IntType) : HasType (.const tag v ty) ty
  | unary {tag : α} {op : UnaryOp} {a : Expr α} {ta ty : IntType} (ha : HasType a ta)
    (hty : ta.Promotes ty) : HasType (.unary tag op a) ty
  | cast {tag : α} {a : Expr α} {ta : IntType} (ty : IntType) (ha : HasType a ta) :
    HasType (.cast tag ty a) ty
  | shift {tag : α} {op : BinaryOp} {a b : Expr α} {ta tb ty : IntType}
    (hop : op ∈ [.shl, .shr]) (ha : HasType a ta) (hb : HasType b tb) (hty : ta.Promotes ty) :
    HasType (.binary tag op a b) ty
  | comparison {tag : α} {op : BinaryOp} {a b : Expr α} {ta tb : IntType}
    (hop : op ∈ [.lt, .le, .gt, .ge, .eq, .ne]) (ha : HasType a ta) (hb : HasType b tb) :
    HasType (.binary tag op a b) .i32
  | arithmetic {tag : α} {op : BinaryOp} {a b : Expr α} {ta tb ty : IntType}
    (hop : op ∈ [.add, .sub, .mul, .and, .or, .xor]) (ha : HasType a ta) (hb : HasType b tb)
    (hty : ta.Converts tb ty) : HasType (.binary tag op a b) ty
  | select {tag : α} {c a b : Expr α} {tc ta tb ty : IntType} (hc : HasType c tc)
    (ha : HasType a ta) (hb : HasType b tb) (hty : ta.Converts tb ty) :
    HasType (.select tag c a b) ty

theorem resultType_of_shift {op : BinaryOp} (h : op ∈ [.shl, .shr]) (a b : IntType) :
    op.resultType a b = a.promoted := by
  cases op <;> first | rfl | simp at h

theorem resultType_of_comparison {op : BinaryOp} (h : op ∈ [.lt, .le, .gt, .ge, .eq, .ne])
    (a b : IntType) : op.resultType a b = .i32 := by
  cases op <;> first | rfl | simp at h

theorem resultType_of_arithmetic {op : BinaryOp} (h : op ∈ [.add, .sub, .mul, .and, .or, .xor])
    (a b : IntType) : op.resultType a b = a.common b := by
  cases op <;> first | rfl | simp at h

theorem HasType.eq_ty {e : Expr α} {ty : IntType} (h : e.HasType ty) : ty = e.ty := by
  induction h with
  | var | const | cast => rfl
  | unary _ hty iha =>
    subst iha
    exact IntType.promotes_iff.mp hty
  | shift hop _ _ hty iha ihb =>
    subst iha ihb
    exact (IntType.promotes_iff.mp hty).trans (resultType_of_shift hop _ _).symm
  | comparison hop _ _ iha ihb => exact (resultType_of_comparison hop _ _).symm
  | arithmetic hop _ _ hty iha ihb =>
    subst iha ihb
    exact (IntType.converts_iff.mp hty).trans (resultType_of_arithmetic hop _ _).symm
  | select _ _ _ hty _ iha ihb =>
    subst iha ihb
    exact IntType.converts_iff.mp hty

theorem hasType_ty (e : Expr α) : e.HasType e.ty := by
  induction e with
  | var tag name ty => exact .var tag name ty
  | const tag v ty => exact .const tag v ty
  | unary tag op a ih => exact .unary ih (IntType.promotes_promoted _)
  | cast tag ty a ih => exact .cast ty ih
  | binary tag op a b iha ihb =>
    have hclass : op ∈ [.shl, .shr] ∨ op ∈ [.lt, .le, .gt, .ge, .eq, .ne] ∨
        op ∈ [.add, .sub, .mul, .and, .or, .xor] := by
      cases op <;> decide
    rcases hclass with hop | hop | hop
    · exact .shift hop iha ihb (IntType.promotes_iff.mpr (resultType_of_shift hop _ _))
    · rw [ty, resultType_of_comparison hop]
      exact .comparison hop iha ihb
    · exact .arithmetic hop iha ihb (IntType.converts_iff.mpr (resultType_of_arithmetic hop _ _))
  | select tag c a b ihc iha ihb => exact .select ihc iha ihb (IntType.converts_common _ _)

end Expr

/-! ## Texts -/

namespace Expr
variable {vars : Typing} {text : String} {p q : Phrase} {a b e : Expr Unit}

/-- The phrase is a derivation of the text, and it denotes the expression. -/
structure Derivation (vars : Typing) (text : String) (p : Phrase) (e : Expr Unit) : Prop where
  lexes : Lexes text.toList p.lexemes
  derives : Derives vars .conditional p e

theorem ofText_eq_ok_iff : ofText vars text = .ok e ↔ ∃ p, Derivation vars text p e := by
  constructor
  · intro h
    obtain ⟨tokens, hlex, h⟩ := bind_eq_ok h
    obtain ⟨p, hp, hts⟩ := ofTokens_eq_ok_iff.mp h
    refine ⟨p, ?_, hp⟩
    rw [← hts]
    exact lexes_of_lexFrom hlex
  · rintro ⟨p, hlexes, hp⟩
    obtain ⟨tokens, hlex, hts⟩ := lexFrom_of_lexes hlexes 0
    rw [ofText, lex, hlex]
    exact ofTokens_eq_ok_iff.mpr ⟨p, hp, hts⟩

theorem Lexes.unique {cs : List Char} {ls ms : List Lexeme} (hl : Lexes cs ls) (hm : Lexes cs ms) :
    ls = ms := by
  obtain ⟨tokens, hlex, rfl⟩ := lexes_iff.mp hl
  obtain ⟨tokens', hlex', rfl⟩ := lexes_iff.mp hm
  rw [Except.ok.inj (hlex.symm.trans hlex')]

theorem Derivation.unique (hp : Derivation vars text p a) (hq : Derivation vars text q b) :
    p = q ∧ a = b := by
  have ha : ofText vars text = .ok a := ofText_eq_ok_iff.mpr ⟨p, hp⟩
  have hb : ofText vars text = .ok b := ofText_eq_ok_iff.mpr ⟨q, hq⟩
  exact ⟨hp.derives.unique hq.derives (hp.lexes.unique hq.lexes),
    Except.ok.inj (ha.symm.trans hb)⟩

end Expr

namespace ExprTree
open CustomIsa.Expr

/-- **The texts that are read are those of the language.** A text is read as a tree if and only if
it has a derivation and the tree is that of the expression it denotes; no text has two derivations;
and every node of the tree has the type that the rules give it, and no other. -/
theorem ofText_accepts_language (vars : Typing) (text : String) :
    (∀ t, ofText vars text = .ok t ↔ ∃ p e, Derivation vars text p e ∧ t = ofExpr e) ∧
      (∀ p q a b, Derivation vars text p a → Derivation vars text q b → p = q ∧ a = b) ∧
      ∀ t, ofText vars text = .ok t → ∀ n ∈ t.nodes, ∀ ty, n.HasType ty ↔ ty = n.ty := by
  refine ⟨fun t => ⟨fun h => ?_, ?_⟩, fun p q a b => Derivation.unique, fun t _ n _ ty => ?_⟩
  · obtain ⟨e, he, rfl⟩ := map_eq_ok h
    obtain ⟨p, hp⟩ := ofText_eq_ok_iff.mp he
    exact ⟨p, e, hp, rfl⟩
  · rintro ⟨p, e, hp, rfl⟩
    rw [ofText, Expr.ofText_eq_ok_iff.mpr ⟨p, hp⟩]
    rfl
  · exact ⟨HasType.eq_ty, fun h => h ▸ hasType_ty n⟩

end ExprTree
end CustomIsa
