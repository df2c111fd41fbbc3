import CustomIsa.Canon.Chain
/-! # The canonical form of an expression

`Canon.ofExpr` builds the canonical form of an expression and `Chain.ofExpr` the chain of an operand
inside a sum; each recurses into the operands only. A nested addition belongs to the chain around it
if it does not overflow or computes in the type of the chain; otherwise it is a sum of its own, and
one term of the chain. -/
namespace CustomIsa
namespace Canon

/-- A cast of `c`: nothing remains of it if it loses nothing; a constant is brought into the
type. -/
def castNode (e : Expr Nat) (ty : IntType) (c : Canon) : Canon :=
  if !e.info.overflow then c.wrap e
  else
    match c.constant? with
    | some value => .const (.ofExpr e (c.origin.absorbed ++ [e.tag])) (ty.reduce value)
    | none => .monadic (.ofExpr e) (.trunc ty.bits) c

/-- The complement of `c`. -/
def notNode (e : Expr Nat) (c : Canon) : Canon :=
  match c.constant? with
  | some value => .const (.ofExpr e (c.origin.absorbed ++ [e.tag])) (e.ty.reduce (-value - 1))
  | none => .monadic (.ofExpr e) .not c

/-- Whether `mask` keeps every bit that `value` can have. -/
def keepsAll (value mask : Canon) : Bool :=
  match mask.constant?.bind Bits.fullMaskWidth? with
  | some bits => value.info.width ≤ bits && !value.info.signed && value.constant?.isNone
  | none => false

/-- Two constants folded into one, where the operator has a value for them. -/
def folded? (e : Expr Nat) (op : DyadicOp) (a b : Canon) : Option Canon := do
  let va ← a.constant?
  let vb ← b.constant?
  let value ← op.fold? va vb
  pure (.const (.ofExpr e (e.tag :: (a.origin.absorbed ++ b.origin.absorbed))) (e.ty.reduce value))

/-- An operation on `a` and `b`; operands that may change places stand in the order of their
keys. -/
def dyadicNode (e : Expr Nat) (op : DyadicOp) (a b : Canon) : Canon :=
  match folded? e op a b with
  | some c => c
  | none =>
    if op = .and ∧ keepsAll a b then a.wrap e b.origin.absorbed
    else if op = .and ∧ keepsAll b a then b.wrap e a.origin.absorbed
    else if op.commutes then
      let (a, b) := ordered a b
      .dyadic (.ofExpr e) op a b
    else .dyadic (.ofExpr e) op a b

/-- The maximum or minimum that a choice between `a` and `b` by comparison `c` amounts to. -/
def extremum? (c a b : Canon) : Option DyadicOp :=
  match c with
  | .dyadic _ op x y =>
    let direct := x.key = a.key && y.key = b.key
    let swapped := x.key = b.key && y.key = a.key
    match op with
    | .gt | .ge => if direct then some .max else if swapped then some .min else none
    | .lt | .le => if direct then some .min else if swapped then some .max else none
    | _ => none
  | _ => none

/-- A conditional. -/
def selectNode (e : Expr Nat) (c a b : Canon) : Canon :=
  match extremum? c a b with
  | some op =>
    let (a, b) := ordered a b
    .dyadic (.ofExpr e (e.tag :: c.allAbsorbed)) op a b
  | none => .select (.ofExpr e) c a b

end Canon

/-- Whether an expression is an addition, a subtraction or a negation. -/
def Expr.isAdditive {α : Type} : Expr α → Bool
  | .unary _ .neg _ | .binary _ .add _ _ | .binary _ .sub _ _ => true
  | _ => false

/-- Whether a nested addition belongs to a chain that computes in type `root`. -/
def Chain.merges (root : IntType) (e : Expr Nat) : Bool := !e.info.overflow || e.ty = root

mutual

/-- The canonical form of an expression. -/
def Canon.ofExpr : Expr Nat → Canon
  | e@(.var _ name _) => .var (.ofExpr e) name
  | e@(.const _ value _) => .const (.ofExpr e) value
  | e@(.cast _ ty a) => .castNode e ty (Canon.ofExpr a)
  | e@(.unary _ .not a) => .notNode e (Canon.ofExpr a)
  | e@(.unary _ .neg a) => (Chain.pass e.tag (Chain.ofExpr e.ty true a)).toCanon e
  | e@(.binary _ op a b) =>
    match DyadicOp.ofBinary? op with
    | some op => .dyadicNode e op (Canon.ofExpr a) (Canon.ofExpr b)
    | none =>
      (Chain.join e.tag (Chain.ofExpr e.ty false a) (Chain.ofExpr e.ty op.subtracts b)).toCanon e
  | e@(.select _ c a b) => .selectNode e (Canon.ofExpr c) (Canon.ofExpr a) (Canon.ofExpr b)

/-- The chain of an expression that is an operand, negated or not, of a chain of type `root`. -/
def Chain.ofExpr (root : IntType) (negated : Bool) : Expr Nat → Chain
  | e@(.var _ name _) => .leaf negated (.var (.ofExpr e) name)
  | e@(.const _ value _) => .leaf negated (.const (.ofExpr e) value)
  | e@(.cast _ ty a) =>
    if !e.info.overflow ∧ a.isAdditive then .pass e.tag (Chain.ofExpr root negated a)
    else .leaf negated (.castNode e ty (Canon.ofExpr a))
  | e@(.unary _ .not a) => .leaf negated (.notNode e (Canon.ofExpr a))
  | e@(.unary _ .neg a) =>
    if Chain.merges root e then .pass e.tag (Chain.ofExpr root (!negated) a)
    else .leaf negated ((Chain.pass e.tag (Chain.ofExpr e.ty true a)).toCanon e)
  | e@(.binary _ op a b) =>
    match DyadicOp.ofBinary? op with
    | some op => .leaf negated (.dyadicNode e op (Canon.ofExpr a) (Canon.ofExpr b))
    | none =>
      if Chain.merges root e then
        .join e.tag (Chain.ofExpr root negated a) (Chain.ofExpr root (negated ^^ op.subtracts) b)
      else
        .leaf negated
          ((Chain.join e.tag (Chain.ofExpr e.ty false a) (Chain.ofExpr e.ty op.subtracts b)).toCanon
            e)
  | e@(.select _ c a b) =>
    .leaf negated (.selectNode e (Canon.ofExpr c) (Canon.ofExpr a) (Canon.ofExpr b))

end

end CustomIsa
