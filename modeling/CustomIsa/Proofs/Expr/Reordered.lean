import CustomIsa.Canon.Build
/-! # Expressions with operands in another order

Two expressions are reorderings of each other if they differ only in their tags and in the order of
the operands of symmetric operators (`Expr.Reordered`). Types and widths treat the operands of these
operators alike, so reordered expressions have the same type and width at every node
(`Expr.Reordered.info_eq`). -/
namespace CustomIsa

/-- Whether the operands of the operator may change places. -/
def BinaryOp.symmetric : BinaryOp → Bool
  | .add | .mul | .and | .or | .xor | .eq | .ne => true
  | .sub | .shl | .shr | .lt | .le | .gt | .ge => false

/-! ## Types and widths -/

theorem IntType.common_comm (a b : IntType) : a.common b = b.common a := by
  unfold common
  by_cases hlt : b.promoted.bits < a.promoted.bits
  · have hge : ¬a.promoted.bits < b.promoted.bits := by omega
    simp only [hlt, hge, if_true, if_false]
  · by_cases hgt : a.promoted.bits < b.promoted.bits
    · simp only [hlt, hgt, if_true, if_false]
    · have heq : a.promoted.bits = b.promoted.bits := by omega
      simp only [heq, Nat.lt_irrefl, if_false, Bool.and_comm]

namespace Width

theorem unify_comm (a b : Width) : unify a b = unify b a := by
  unfold unify
  simp only [Nat.max_comm, Bool.or_comm]

theorem mul_comm (ty : IntType) (a b : Width) : mul ty a b = mul ty b a := by
  unfold mul
  simp only [Nat.add_comm, Bool.or_comm]

theorem and_comm (ty : IntType) (a b : Width) : Width.and ty a b = Width.and ty b a := by
  unfold Width.and
  cases a.signed <;> cases b.signed <;> simp only [Nat.min_comm, Nat.max_comm]

/-- The width of a symmetric operation does not depend on the order of the operands. -/
theorem binary_comm {op : BinaryOp} (h : op.symmetric = true) (ty : IntType) (a b : Width)
    (shift shift' : Option Int) : binary ty op a b shift = binary ty op b a shift' := by
  unfold binary
  cases op with
  | add | or | xor => simp only [unify_comm]
  | mul => exact mul_comm ty a b
  | and => exact and_comm ty a b
  | eq | ne => rfl
  | _ => cases h

end Width

theorem BinaryOp.resultType_comm {op : BinaryOp} (h : op.symmetric = true) (a b : IntType) :
    op.resultType a b = op.resultType b a := by
  have hshift : op.isShift = false := by cases op <;> first | rfl | cases h
  unfold resultType
  rw [hshift, IntType.common_comm]
  rfl

/-! ## Reordering -/

namespace Expr
variable {α β : Type}

/-- The expressions differ in their tags and in the order of the operands of symmetric operators
only. -/
inductive Reordered : Expr α → Expr β → Prop where
  | var {t t' name ty} : Reordered (.var t name ty) (.var t' name ty)
  | const {t t' v ty} : Reordered (.const t v ty) (.const t' v ty)
  | unary {t t' op a a'} (ha : Reordered a a') : Reordered (.unary t op a) (.unary t' op a')
  | binary {t t' op a b a' b'} (ha : Reordered a a') (hb : Reordered b b') :
    Reordered (.binary t op a b) (.binary t' op a' b')
  | swapped {t t' op a b a' b'} (hop : op.symmetric = true) (ha : Reordered a b')
    (hb : Reordered b a') : Reordered (.binary t op a b) (.binary t' op a' b')
  | cast {t t' ty a a'} (ha : Reordered a a') : Reordered (.cast t ty a) (.cast t' ty a')
  | select {t t' c a b c' a' b'} (hc : Reordered c c') (ha : Reordered a a')
    (hb : Reordered b b') : Reordered (.select t c a b) (.select t' c' a' b')

/-- The expression has no binary and no unary minus. -/
def MinusFree : Expr α → Prop
  | .var _ _ _ | .const _ _ _ => True
  | .unary _ op a => op ≠ .neg ∧ a.MinusFree
  | .binary _ op a b => op ≠ .sub ∧ a.MinusFree ∧ b.MinusFree
  | .cast _ _ a => a.MinusFree
  | .select _ c a b => c.MinusFree ∧ a.MinusFree ∧ b.MinusFree

namespace Reordered
variable {e : Expr α} {e' : Expr β} (h : e.Reordered e')
include h

theorem symm : e'.Reordered e := by
  induction h with
  | var => exact .var
  | const => exact .const
  | unary _ ih => exact .unary ih
  | binary _ _ iha ihb => exact .binary iha ihb
  | swapped hop _ _ iha ihb => exact .swapped hop ihb iha
  | cast _ ih => exact .cast ih
  | select _ _ _ ihc iha ihb => exact .select ihc iha ihb

theorem minusFree (hminus : e.MinusFree) : e'.MinusFree := by
  induction h with
  | var => trivial
  | const => trivial
  | unary _ ih => exact ⟨hminus.1, ih hminus.2⟩
  | binary _ _ iha ihb => exact ⟨hminus.1, iha hminus.2.1, ihb hminus.2.2⟩
  | swapped _ _ _ iha ihb => exact ⟨hminus.1, ihb hminus.2.2, iha hminus.2.1⟩
  | cast _ ih => exact ih hminus
  | select _ _ _ ihc iha ihb => exact ⟨ihc hminus.1, iha hminus.2.1, ihb hminus.2.2⟩

theorem ty_eq : e.ty = e'.ty := by
  induction h with
  | var => rfl
  | const => rfl
  | unary _ ih => rw [ty, ty, ih]
  | binary _ _ iha ihb => rw [ty, ty, iha, ihb]
  | swapped hop _ _ iha ihb => rw [ty, ty, iha, ihb, BinaryOp.resultType_comm hop]
  | cast _ _ => rfl
  | select _ _ _ _ iha ihb => rw [ty, ty, iha, ihb]

theorem constant?_eq : e.constant? = e'.constant? := by
  cases h <;> rfl

theorem isAdditive_eq : e.isAdditive = e'.isAdditive := by
  cases h with
  | @unary _ _ op => cases op <;> rfl
  | @binary _ _ op => cases op <;> rfl
  | @swapped _ _ op => cases op <;> rfl
  | _ => rfl

/-- **Reordered expressions have the same width.** -/
theorem info_eq : e.info = e'.info := by
  induction h with
  | var => rfl
  | const => rfl
  | unary ha ih => rw [info, info, ih, ha.ty_eq]
  | binary ha hb iha ihb => rw [info, info, iha, ihb, ha.ty_eq, hb.ty_eq, hb.constant?_eq]
  | swapped hop ha hb iha ihb =>
    rw [info, info, iha, ihb, ha.ty_eq, hb.ty_eq, BinaryOp.resultType_comm hop]
    exact Width.binary_comm hop _ _ _ _ _
  | cast _ ih => rw [info, info, ih]
  | select _ ha hb _ iha ihb => rw [info, info, iha, ihb, ha.ty_eq, hb.ty_eq]

end Reordered
end Expr

theorem Chain.merges_eq {e e' : Expr Nat} (h : e.Reordered e') (root : IntType) :
    merges root e = merges root e' := by
  rw [merges, merges, h.info_eq, h.ty_eq]

end CustomIsa
