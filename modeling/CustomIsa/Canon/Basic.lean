import CustomIsa.Expr.Width
import CustomIsa.Operator
/-! # Canonical forms

The canonical form of an expression is the same for expressions that differ only in the order and
grouping of their sums, in casts that lose nothing, in masks that keep every bit, and in the
spelling of a maximum or minimum. Every node records what it stands for in the source (`Origin`).

Nodes are told apart by their keys (`Canon.key`), which leave origins out: operators and operands
belong to a key, the type in which a node is computed does not. -/
namespace CustomIsa

/-- What a canonical node stands for: the type and width of its value, the outermost source node,
and the numbers of the source nodes that went into the node itself. A synthetic node exists for
one attempt at matching only and has no value in the source. -/
structure Origin where
  ty : IntType
  info : Width
  source : Expr Nat
  absorbed : List Nat
  synthetic : Bool := false
  deriving Repr, DecidableEq

/-- A canonical form. A sum has signed terms, a constant, and the numbers of the source nodes that
add a constant; `true` marks a term that is subtracted. -/
inductive Canon where
  | var (origin : Origin) (name : String)
  | const (origin : Origin) (value : Int)
  | monadic (origin : Origin) (op : MonadicOp) (a : Canon)
  | dyadic (origin : Origin) (op : DyadicOp) (a b : Canon)
  | select (origin : Origin) (c a b : Canon)
  | sum (origin : Origin) (terms : List (Bool × Canon)) (constant : Int) (constAdds : List Nat)

/-- The origin of a node that stands for a source node alone. -/
def Origin.ofExpr (e : Expr Nat) (absorbed : List Nat := [e.tag]) : Origin :=
  { ty := e.ty, info := e.info, source := e, absorbed }

/-- The origin of a node after an outer source node collapsed into it, along with others. -/
def Origin.wrap (o : Origin) (outer : Expr Nat) (others : List Nat) : Origin :=
  { o with source := outer, absorbed := o.absorbed ++ outer.tag :: others }

namespace Canon

/-- The origin of the topmost node. -/
def origin : Canon → Origin
  | .var o _ | .const o _ | .monadic o _ _ | .dyadic o _ _ _ | .select o _ _ _ | .sum o _ _ _ => o

/-- The form with another origin at its topmost node. -/
def withOrigin (o : Origin) : Canon → Canon
  | .var _ name => .var o name
  | .const _ value => .const o value
  | .monadic _ op a => .monadic o op a
  | .dyadic _ op a b => .dyadic o op a b
  | .select _ c a b => .select o c a b
  | .sum _ terms constant adds => .sum o terms constant adds

/-- The width of the value. -/
def info (c : Canon) : Width := c.origin.info

/-- The type in which the value is computed. -/
def ty (c : Canon) : IntType := c.origin.ty

/-- The number of the outermost source node. -/
def source (c : Canon) : Nat := c.origin.source.tag

/-- The value of a constant. -/
def constant? : Canon → Option Int
  | .const _ value => some value
  | _ => none

/-- The nodes directly below the topmost one. -/
def children : Canon → List Canon
  | .var _ _ | .const _ _ => []
  | .monadic _ _ a => [a]
  | .dyadic _ _ a b => [a, b]
  | .select _ c a b => [c, a, b]
  | .sum _ terms _ _ => terms.map Prod.snd

mutual

/-- A text that tells apart forms of different structure. -/
def key : Canon → String
  | .var _ name => "v:" ++ name
  | .const _ value => "~" ++ toString value
  | .monadic _ op a => "(" ++ op.keyName ++ " " ++ a.key ++ ")"
  | .dyadic _ op a b => "(" ++ op.keyName ++ " " ++ a.key ++ " " ++ b.key ++ ")"
  | .select _ c a b => "(Select " ++ c.key ++ " " ++ a.key ++ " " ++ b.key ++ ")"
  | .sum _ terms constant _ =>
    "(sum " ++ " ".intercalate (termKeys terms) ++ " ~" ++ toString constant ++ ")"

/-- The keys of signed terms, each with its sign. -/
def termKeys : List (Bool × Canon) → List String
  | [] => []
  | (negated, c) :: ts => ((if negated then "-" else "+") ++ c.key) :: termKeys ts

end

mutual

/-- The numbers of all source nodes that went into the form. -/
def allAbsorbed : Canon → List Nat
  | .var o _ | .const o _ => o.absorbed
  | .monadic o _ a => o.absorbed ++ a.allAbsorbed
  | .dyadic o _ a b => o.absorbed ++ a.allAbsorbed ++ b.allAbsorbed
  | .select o c a b => o.absorbed ++ c.allAbsorbed ++ a.allAbsorbed ++ b.allAbsorbed
  | .sum o terms _ _ => o.absorbed ++ absorbedOfTerms terms

/-- The numbers of all source nodes that went into the terms. -/
def absorbedOfTerms : List (Bool × Canon) → List Nat
  | [] => []
  | (_, c) :: ts => c.allAbsorbed ++ absorbedOfTerms ts

end

mutual

/-- All nodes of the form, each before those below it. -/
def preorder : Canon → List Canon
  | c@(.var _ _) | c@(.const _ _) => [c]
  | c@(.monadic _ _ a) => c :: a.preorder
  | c@(.dyadic _ _ a b) => c :: (a.preorder ++ b.preorder)
  | n@(.select _ c a b) => n :: (c.preorder ++ a.preorder ++ b.preorder)
  | c@(.sum _ terms _ _) => c :: preorderOfTerms terms

/-- All nodes of the terms, in order. -/
def preorderOfTerms : List (Bool × Canon) → List Canon
  | [] => []
  | (_, c) :: ts => c.preorder ++ preorderOfTerms ts

end

/-- Lets an outer source node collapse into the form, along with others. -/
def wrap (c : Canon) (outer : Expr Nat) (others : List Nat := []) : Canon :=
  c.withOrigin (c.origin.wrap outer others)

/-- Two forms in the order of their keys. -/
def ordered (a b : Canon) : Canon × Canon := if b.key < a.key then (b, a) else (a, b)

end Canon
end CustomIsa
