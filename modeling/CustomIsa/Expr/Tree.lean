import CustomIsa.Expr.Parser
/-! # Numbered expressions

The nodes of a tree are numbered from zero on, operands before the nodes that use them, and each
node carries its number as its tag. A tree read from text numbers its nodes as `Expr.postorder`
lists them; a tree put together from drafts may use a node several times and may have nodes outside
its root. -/
namespace CustomIsa

/-- A numbered expression with all nodes it was put together from. -/
structure ExprTree where
  nodes : List (Expr Nat)
  root : Expr Nat
  deriving Repr, DecidableEq

/-- Numbers the nodes of an expression from `next` on, operands first; gives the number after. -/
def Expr.number {α : Type} (next : Nat) : Expr α → Expr Nat × Nat
  | .var _ name ty => (.var next name ty, next + 1)
  | .const _ value ty => (.const next value ty, next + 1)
  | .unary _ op a =>
    let (a, next) := a.number next
    (.unary next op a, next + 1)
  | .binary _ op a b =>
    let (a, next) := a.number next
    let (b, next) := b.number next
    (.binary next op a b, next + 1)
  | .cast _ ty a =>
    let (a, next) := a.number next
    (.cast next ty a, next + 1)
  | .select _ c a b =>
    let (c, next) := c.number next
    let (a, next) := a.number next
    let (b, next) := b.number next
    (.select next c a b, next + 1)

/-- A node that refers to its operands by number. -/
inductive Draft where
  | var (name : String) (ty : IntType)
  | const (value : Int) (ty : IntType)
  | unary (op : UnaryOp) (a : Nat)
  | binary (op : BinaryOp) (a b : Nat)
  | cast (ty : IntType) (a : Nat)
  | select (c a b : Nat)
  deriving Repr, DecidableEq

/-- A constant whose type follows from its value. -/
def Draft.literal (value : Int) : Draft := .const value (Expr.literalType value)

/-- The node that a draft stands for after `nodes`, unless it refers to a node that is not there. -/
def Draft.build? (nodes : List (Expr Nat)) : Draft → Option (Expr Nat)
  | .var name ty => some (.var nodes.length name ty)
  | .const value ty => some (.const nodes.length value ty)
  | .unary op a => do
    let a ← nodes[a]?
    pure (.unary nodes.length op a)
  | .binary op a b => do
    let a ← nodes[a]?
    let b ← nodes[b]?
    pure (.binary nodes.length op a b)
  | .cast ty a => do
    let a ← nodes[a]?
    pure (.cast nodes.length ty a)
  | .select c a b => do
    let c ← nodes[c]?
    let a ← nodes[a]?
    let b ← nodes[b]?
    pure (.select nodes.length c a b)

/-- Adds the nodes of drafts to `nodes`, one after another. -/
def Draft.buildAll? (nodes : List (Expr Nat)) : List Draft → Option (List (Expr Nat))
  | [] => some nodes
  | d :: ds => (d.build? nodes).bind fun e => buildAll? (nodes ++ [e]) ds

namespace ExprTree

/-- The tree of an expression, numbered operands first. -/
def ofExpr {α : Type} (e : Expr α) : ExprTree :=
  let root := (e.number 0).1
  ⟨root.postorder, root⟩

/-- The tree of numbered nodes whose root has the given number. -/
def ofNodes (nodes : List (Expr Nat)) (root : Nat) : Except Expr.Fault ExprTree :=
  match nodes[root]? with
  | some e => .ok ⟨nodes, e⟩
  | none => .error ⟨0, .notANode root⟩

/-- Reads a tree from text. -/
def ofText (vars : Typing) (text : String) : Except Expr.Fault ExprTree :=
  (Expr.ofText vars text).map ofExpr

/-- The node of the given number. -/
def node? (t : ExprTree) (number : Nat) : Option (Expr Nat) := t.nodes[number]?

/-- The number of nodes. -/
def size (t : ExprTree) : Nat := t.nodes.length

/-- The tree as text. -/
def render (t : ExprTree) : String := t.root.render

end ExprTree
end CustomIsa
