import CustomIsa.Bits
import CustomIsa.IntType
/-! # Integer expressions

Expressions of a C-like source program: variables and constants with a type, unary and binary
operators, casts and the conditional. Every node carries a tag; the tag of a node in a tree is its
number, and an expression fresh from text has no tags yet (`Expr Unit`).

The type in which a node is computed follows from its operands (`Expr.ty`): shifts and unary
operators promote their operand, comparisons give a 32-bit truth value, and the other operators
compute in the common type of both operands. -/
namespace CustomIsa

/-- Unary operators. -/
inductive UnaryOp where
  | neg
  | not
  deriving Repr, DecidableEq

/-- Binary operators. -/
inductive BinaryOp where
  | add
  | sub
  | mul
  | and
  | or
  | xor
  | shl
  | shr
  | lt
  | le
  | gt
  | ge
  | eq
  | ne
  deriving Repr, DecidableEq

/-- The spelling of a unary operator. -/
def UnaryOp.symbol : UnaryOp → String
  | .neg => "-"
  | .not => "~"

namespace BinaryOp

/-- The spelling of a binary operator. -/
def symbol : BinaryOp → String
  | .add => "+"
  | .sub => "-"
  | .mul => "*"
  | .and => "&"
  | .or => "|"
  | .xor => "^"
  | .shl => "<<"
  | .shr => ">>"
  | .lt => "<"
  | .le => "<="
  | .gt => ">"
  | .ge => ">="
  | .eq => "=="
  | .ne => "!="

/-- Whether the operator compares its operands. -/
def isComparison : BinaryOp → Bool
  | .lt | .le | .gt | .ge | .eq | .ne => true
  | _ => false

/-- Whether the operator shifts its left operand. -/
def isShift : BinaryOp → Bool
  | .shl | .shr => true
  | _ => false

/-- Whether the operator subtracts its right operand. -/
def subtracts : BinaryOp → Bool
  | .sub => true
  | _ => false

/-- How tightly the operator binds. -/
def level : BinaryOp → Nat
  | .or => 3
  | .xor => 4
  | .and => 5
  | .eq | .ne => 6
  | .lt | .le | .gt | .ge => 7
  | .shl | .shr => 8
  | .add | .sub => 9
  | .mul => 10

/-- The type in which the operator computes on operands of the given types. -/
def resultType (op : BinaryOp) (a b : IntType) : IntType :=
  if op.isShift then a.promoted
  else if op.isComparison then .i32
  else a.common b

end BinaryOp

/-- An expression with a tag at every node. -/
inductive Expr (α : Type) where
  | var (tag : α) (name : String) (ty : IntType)
  | const (tag : α) (value : Int) (ty : IntType)
  | unary (tag : α) (op : UnaryOp) (a : Expr α)
  | binary (tag : α) (op : BinaryOp) (a b : Expr α)
  | cast (tag : α) (ty : IntType) (a : Expr α)
  | select (tag : α) (c a b : Expr α)
  deriving Repr, DecidableEq

namespace Expr
variable {α : Type}

/-- The tag of the topmost node. -/
def tag : Expr α → α
  | .var t _ _ | .const t _ _ | .unary t _ _ | .binary t _ _ _ | .cast t _ _ | .select t _ _ _ => t

/-- The type in which the topmost node is computed. -/
def ty : Expr α → IntType
  | .var _ _ ty | .const _ _ ty | .cast _ ty _ => ty
  | .unary _ _ a => a.ty.promoted
  | .binary _ op a b => op.resultType a.ty b.ty
  | .select _ _ a b => a.ty.common b.ty

/-- The operands of the topmost node, in order. -/
def children : Expr α → List (Expr α)
  | .var _ _ _ | .const _ _ _ => []
  | .unary _ _ a | .cast _ _ a => [a]
  | .binary _ _ a b => [a, b]
  | .select _ c a b => [c, a, b]

/-- The number of nodes. -/
def size : Expr α → Nat
  | .var _ _ _ | .const _ _ _ => 1
  | .unary _ _ a | .cast _ _ a => 1 + a.size
  | .binary _ _ a b => 1 + a.size + b.size
  | .select _ c a b => 1 + c.size + a.size + b.size

/-- All nodes, each before its operands. -/
def preorder : Expr α → List (Expr α)
  | e@(.var _ _ _) | e@(.const _ _ _) => [e]
  | e@(.unary _ _ a) | e@(.cast _ _ a) => e :: a.preorder
  | e@(.binary _ _ a b) => e :: (a.preorder ++ b.preorder)
  | e@(.select _ c a b) => e :: (c.preorder ++ a.preorder ++ b.preorder)

/-- All nodes, each after its operands. -/
def postorder : Expr α → List (Expr α)
  | e@(.var _ _ _) | e@(.const _ _ _) => [e]
  | e@(.unary _ _ a) | e@(.cast _ _ a) => a.postorder ++ [e]
  | e@(.binary _ _ a b) => a.postorder ++ b.postorder ++ [e]
  | e@(.select _ c a b) => c.postorder ++ a.postorder ++ b.postorder ++ [e]

/-- The value of a constant. -/
def constant? : Expr α → Option Int
  | .const _ value _ => some value
  | _ => none

/-- The expression as text, with every binary operation and conditional in parentheses. -/
def render : Expr α → String
  | .var _ name _ => name
  | .const _ value _ => toString value
  | .unary _ op a => op.symbol ++ a.render
  | .binary _ op a b => "(" ++ a.render ++ " " ++ op.symbol ++ " " ++ b.render ++ ")"
  | .cast _ ty a => "(" ++ ty.shortName ++ ")" ++ a.render
  | .select _ c a b => "(" ++ c.render ++ " ? " ++ a.render ++ " : " ++ b.render ++ ")"

/-- The type of a constant written without a type: the first of two signed types that holds it. -/
def literalType (value : Int) : IntType :=
  if Bits.fitsSigned value 32 then .i32
  else if Bits.fitsSigned value 64 then .i64
  else .u64

end Expr
end CustomIsa
