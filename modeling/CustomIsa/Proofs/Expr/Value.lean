import CustomIsa.Expr.Width
import CustomIsa.Proofs.Range
/-! # The value of an expression

What an expression computes, given the values of its variables. Every operation is carried out on
the integers first (`Expr.exactValue`), and the result is then reduced into the type in which the
node is computed (`Expr.value`). Bitwise operations see a negative number in two's complement with
endless sign bits. A shift multiplies by a power of two or divides by one, rounding down; a negative
amount, which means nothing in the source, counts as zero. -/
namespace CustomIsa

/-- The exact result of a unary operation. -/
def UnaryOp.apply : UnaryOp → Int → Int
  | .neg, a => -a
  | .not, a => -a - 1

/-- The exact result of a binary operation. -/
def BinaryOp.apply : BinaryOp → Int → Int → Int
  | .add, a, b => a + b
  | .sub, a, b => a - b
  | .mul, a, b => a * b
  | .and, a, b => Int.land a b
  | .or, a, b => Int.lor a b
  | .xor, a, b => Int.xor a b
  | .shl, a, b => a * 2 ^ b.toNat
  | .shr, a, b => a / 2 ^ b.toNat
  | .lt, a, b => if a < b then 1 else 0
  | .le, a, b => if a ≤ b then 1 else 0
  | .gt, a, b => if b < a then 1 else 0
  | .ge, a, b => if b ≤ a then 1 else 0
  | .eq, a, b => if a = b then 1 else 0
  | .ne, a, b => if a ≠ b then 1 else 0

theorem IntType.Proper.resultType {a b : IntType} (ha : a.Proper) (op : BinaryOp)
    (hb : b.Proper) : (op.resultType a b).Proper := by
  rw [BinaryOp.resultType]
  split
  · exact ha.promoted
  · split
    · exact IntType.proper_i32
    · exact ha.common hb

/-- The values of the variables. -/
abbrev Env := String → Int

namespace Expr
variable {α : Type}

/-- The value of an expression. -/
def value (env : Env) : Expr α → Int
  | .var _ name _ => env name
  | .const _ v _ => v
  | .unary _ op a => a.ty.promoted.reduce (op.apply (a.value env))
  | .binary _ op a b => (op.resultType a.ty b.ty).reduce (op.apply (a.value env) (b.value env))
  | .cast _ ty a => ty.reduce (a.value env)
  | .select _ c a b =>
    (a.ty.common b.ty).reduce (if c.value env ≠ 0 then a.value env else b.value env)

/-- The value of the topmost node before it is reduced into its type. -/
def exactValue (env : Env) : Expr α → Int
  | .var _ name _ => env name
  | .const _ v _ => v
  | .unary _ op a => op.apply (a.value env)
  | .binary _ op a b => op.apply (a.value env) (b.value env)
  | .cast _ _ a => a.value env
  | .select _ c a b => if c.value env ≠ 0 then a.value env else b.value env

/-- Whether the topmost node is a bitwise complement. -/
def isComplement : Expr α → Bool
  | .unary _ .not _ => true
  | _ => false

/-- A condition on the leaves of an expression and on the types of its casts. -/
structure LeafRule where
  var : String → IntType → Prop
  const : Int → IntType → Prop
  cast : IntType → Prop

/-- All variables, constants and casts keep to the rule. -/
def Obeys (rule : LeafRule) : Expr α → Prop
  | .var _ name ty => rule.var name ty
  | .const _ v ty => rule.const v ty
  | .unary _ _ a => a.Obeys rule
  | .binary _ _ a b => a.Obeys rule ∧ b.Obeys rule
  | .cast _ ty a => rule.cast ty ∧ a.Obeys rule
  | .select _ c a b => c.Obeys rule ∧ a.Obeys rule ∧ b.Obeys rule

/-- All types have 1 to 64 bits, and every constant is a value of its type. -/
def LeafRule.proper : LeafRule where
  var _ ty := ty.Proper
  const v ty := ty.Proper ∧ ty.Has v
  cast ty := ty.Proper

/-- Every variable has a value of the type with which it occurs. -/
def LeafRule.admits (env : Env) : LeafRule where
  var name ty := ty.Has (env name)
  const _ _ := True
  cast _ := True

/-- All types have 1 to 64 bits, and every constant is a value of its type. -/
def Proper (e : Expr α) : Prop := e.Obeys .proper

/-- Every variable has a value of the type with which it occurs. -/
def Admits (env : Env) (e : Expr α) : Prop := e.Obeys (.admits env)

theorem Proper.ty {e : Expr α} (h : e.Proper) : e.ty.Proper := by
  induction e with
  | var | const | cast => first | exact h | exact h.1
  | unary _ _ a ih => exact (ih h).promoted
  | binary _ op a b iha ihb => exact (iha h.1).resultType op (ihb h.2)
  | select _ c a b _ iha ihb => exact (iha h.2.1).common (ihb h.2.2)

/-- The value is the exact value, reduced into the type. -/
theorem value_eq_reduce {env : Env} {e : Expr α} (h : e.Proper) (hadm : e.Admits env) :
    e.value env = e.ty.reduce (e.exactValue env) := by
  cases e with
  | var _ name ty => exact (IntType.reduce_eq_self h hadm).symm
  | const _ v ty => exact (IntType.reduce_eq_self h.1 h.2).symm
  | unary | binary | cast | select => rfl

/-- The value of a node is a value of its type. -/
theorem has_value {env : Env} {e : Expr α} (h : e.Proper) (hadm : e.Admits env) :
    e.ty.Has (e.value env) := by
  rw [value_eq_reduce h hadm]
  exact IntType.has_reduce h.ty _

end Expr
end CustomIsa
