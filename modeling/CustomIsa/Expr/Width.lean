import CustomIsa.Expr.Basic
/-! # The width of an expression

For every node the number of bits that hold each value it can take, given the widths of its
leaves. The *exact* width is that of the mathematical result; where the node's type does not hold
it, the node overflows and its width is that of the type. A left shift counts at most `Width.most`
bits. -/
namespace CustomIsa

/-- What is known of the values of a node: the bits that hold them, the bits of the exact result,
whether a value may be negative, whether the exact result may leave the type, and whether a cast
keeps every value of its operand. -/
structure Width where
  width : Nat
  exact : Nat
  signed : Bool
  overflow : Bool := false
  sufficient : Bool := false
  deriving Repr, DecidableEq, Inhabited

namespace Width

/-- All values of a type. -/
def ofType (ty : IntType) : Width := { width := ty.bits, exact := ty.bits, signed := ty.signed }

/-- An exact result of the given width, brought into the type. -/
def settle (ty : IntType) (exact : Nat) (signed : Bool) : Width :=
  let exact := max 1 exact
  if ty.holds exact signed then { width := exact, exact, signed }
  else { width := ty.bits, exact, signed := ty.signed, overflow := true }

/-- The width at which two operands meet: an unsigned one takes a bit more beside a signed one. -/
def unify (a b : Width) : Nat × Bool :=
  let wa := if b.signed && !a.signed then a.width + 1 else a.width
  let wb := if a.signed && !b.signed then b.width + 1 else b.width
  (max wa wb, a.signed || b.signed)

/-- The width of a constant. -/
def const (ty : IntType) (value : Int) : Width :=
  let (width, signed) := Bits.valueWidth value
  settle ty width signed

/-- The width of a unary operation. -/
def unary (ty : IntType) (op : UnaryOp) (a : Width) : Width :=
  match op with
  | .neg => settle ty (a.width + 1) true
  | .not => ofType ty

/-- The width of a product. -/
def mul (ty : IntType) (a b : Width) : Width :=
  if a.signed || b.signed then
    let wa := if a.signed then a.width else a.width + 1
    let wb := if b.signed then b.width else b.width + 1
    settle ty (wa + wb) true
  else settle ty (a.width + b.width) false

/-- The width of a conjunction: an operand that is not negative bounds the result. -/
def and (ty : IntType) (a b : Width) : Width :=
  match a.signed, b.signed with
  | false, false => settle ty (min a.width b.width) false
  | false, true => settle ty a.width false
  | true, false => settle ty b.width false
  | true, true => settle ty (max a.width b.width) true

/-- The largest number of bits that a left shift counts; a wider result counts as that many. -/
def most : Nat := 2 ^ (32 : Nat) - 1

/-- The width of a left shift, by a constant amount if `shift` gives one. -/
def shl (ty : IntType) (a : Width) (shift : Option Int) : Width :=
  match shift with
  | some k =>
    if 0 ≤ k ∧ k < 128 then settle ty (min most (a.width + k.toNat)) a.signed
    else { ofType ty with overflow := true }
  | none => { ofType ty with overflow := true }

/-- The width of a right shift, by a constant amount if `shift` gives one. -/
def shr (ty : IntType) (a : Width) (shift : Option Int) : Width :=
  match shift with
  | some k =>
    if 0 ≤ k then settle ty (max 1 (a.width - k.toNat)) a.signed else settle ty a.width a.signed
  | none => settle ty a.width a.signed

/-- The width of a binary operation; `shift` is the right operand if that is a constant. -/
def binary (ty : IntType) (op : BinaryOp) (a b : Width) (shift : Option Int) : Width :=
  match op with
  | .add => settle ty ((unify a b).1 + 1) (unify a b).2
  | .sub => settle ty ((unify a b).1 + 1) true
  | .mul => mul ty a b
  | .and => and ty a b
  | .or | .xor => settle ty (unify a b).1 (unify a b).2
  | .shl => shl ty a shift
  | .shr => shr ty a shift
  | .lt | .le | .gt | .ge | .eq | .ne => settle ty 1 false

/-- The width of a cast. -/
def cast (ty : IntType) (a : Width) : Width :=
  if ty.holds a.width a.signed then
    { width := a.width, exact := a.width, signed := a.signed, sufficient := true }
  else { width := ty.bits, exact := a.width, signed := ty.signed, overflow := true }

end Width

/-- The width of the topmost node. -/
def Expr.info {α : Type} : Expr α → Width
  | .var _ _ ty => .ofType ty
  | .const _ value ty => .const ty value
  | .unary _ op a => .unary a.ty.promoted op a.info
  | .binary _ op a b => .binary (op.resultType a.ty b.ty) op a.info b.info b.constant?
  | .cast _ ty a => .cast ty a.info
  | .select _ _ a b =>
    .settle (a.ty.common b.ty) (Width.unify a.info b.info).1 (Width.unify a.info b.info).2

end CustomIsa
