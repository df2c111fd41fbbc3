import CustomIsa.Operand
import CustomIsa.Operator
import CustomIsa.Template.Sexp
/-! # Templates and their shapes

A template says what an instruction computes, over the operands it reads. It has the shape of a
canonical form: additions are gathered into sums with a folded constant. An immediate that is added
in a sum *absorbs* the constant of the sum it is matched with.

A shape is what stands topmost, with the number of operands below it. The shape settles how the
operands are aligned, and a table lists definitions by the shapes of their templates, so that only
those are tried at a node that have its shape. -/
namespace CustomIsa

/-- What stands topmost in a template or a canonical form: an operator, or a sum. -/
inductive Shape where
  | monadic (op : MonadicOp)
  | dyadic (op : DyadicOp)
  | select
  | sum
  deriving Repr, DecidableEq

/-- A shape and its number of operands. -/
structure ShapeKey where
  shape : Shape
  arity : Nat
  deriving Repr, DecidableEq

/-- How operands are aligned: one by one, in both orders, or as signed terms in every pairing. -/
inductive Rule where
  | ordered
  | commutative
  | sum
  deriving Repr, DecidableEq

/-- The rule for the operands of a shape; no template has another shape. -/
def ShapeKey.rule? (key : ShapeKey) : Option Rule :=
  match key.shape, key.arity with
  | .monadic _, 1 | .select, 3 => some .ordered
  | .dyadic op, 2 => some (if op.commutes then .commutative else .ordered)
  | .sum, _ + 1 => some .sum
  | _, _ => none

/-- The positions of definitions, listed by the shapes of their templates. -/
structure ShapeTable where
  rows : List (ShapeKey × List Nat) := []

namespace ShapeTable

/-- Puts a position at the end of the row of a shape; a shape without a row gets one. -/
def insertRow (key : ShapeKey) (position : Nat) :
    List (ShapeKey × List Nat) → List (ShapeKey × List Nat)
  | [] => [(key, [position])]
  | row :: rows =>
    if row.1 = key then (key, row.2 ++ [position]) :: rows else row :: insertRow key position rows

/-- Enters a definition under a shape. -/
def insert (t : ShapeTable) (key : ShapeKey) (position : Nat) : ShapeTable :=
  ⟨insertRow key position t.rows⟩

/-- The positions of the definitions of a shape. -/
def candidates (t : ShapeTable) (key : ShapeKey) : List Nat := (t.rows.lookup key).getD []

end ShapeTable

/-- A template; each part has the guards that its value has to meet. -/
inductive Template where
  | register (guards : List Guard) (operand : Operand)
  | immediate (guards : List Guard) (operand : Operand)
  | const (guards : List Guard) (value : Int)
  | monadic (guards : List Guard) (op : MonadicOp) (a : Template)
  | dyadic (guards : List Guard) (op : DyadicOp) (a b : Template)
  | sum (guards : List Guard) (terms : List (Bool × Template)) (constant : Int)
    (absorber : Option Operand)

namespace Template

/-- The guards of the topmost part. -/
def guards : Template → List Guard
  | .register g _ | .immediate g _ | .const g _ | .monadic g _ _ | .dyadic g _ _ _
  | .sum g _ _ _ => g

/-- The template with more guards at its topmost part. -/
def addGuards (more : List Guard) : Template → Template
  | .register g op => .register (g ++ more) op
  | .immediate g op => .immediate (g ++ more) op
  | .const g value => .const (g ++ more) value
  | .monadic g op a => .monadic (g ++ more) op a
  | .dyadic g op a b => .dyadic (g ++ more) op a b
  | .sum g terms constant absorber => .sum (g ++ more) terms constant absorber

/-- The shape of the topmost part, if that is an operator or a sum. -/
def rootShape? : Template → Option ShapeKey
  | .register _ _ | .immediate _ _ | .const _ _ => none
  | .monadic _ op _ => some ⟨.monadic op, 1⟩
  | .dyadic _ op _ _ => some ⟨.dyadic op, 2⟩
  | .sum _ terms _ _ => some ⟨.sum, terms.length⟩

/-- Whether the topmost part is an operator. -/
def isOperator (t : Template) : Bool := t.rootShape?.isSome

end Template
end CustomIsa
