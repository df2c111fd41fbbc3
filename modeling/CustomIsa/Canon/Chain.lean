import CustomIsa.Canon.Basic
import CustomIsa.Ordered
/-! # Chains of additions

A chain of additions, subtractions and negations is gathered into signed terms and one constant. A
chain becomes a canonical sum in four steps: the constant is brought into the type if the chain
wraps, the terms are sorted by their keys, terms of opposite sign and equal key cancel, and what is
left stands as a constant, as its only term, or as a sum. -/
namespace CustomIsa

/-- The signed terms and the constant of a chain, the numbers of the source nodes that went into it,
those among them that add a constant, and whether the chain is a mere constant. -/
structure Chain where
  terms : List (Bool × Canon) := []
  constant : Int := 0
  absorbed : List Nat := []
  constAdds : List Nat := []
  folded : Bool := false

namespace Chain

/-- The chain of one operand. -/
def leaf (negated : Bool) (c : Canon) : Chain :=
  match c.constant? with
  | some value =>
    { constant := Bits.wrap128 (if negated then -value else value)
      absorbed := c.origin.absorbed
      folded := true }
  | none => { terms := [(negated, c)] }

/-- The chain of a source node that hands on its only operand. -/
def pass (number : Nat) (a : Chain) : Chain := { a with absorbed := number :: a.absorbed }

/-- The chain of a source node that adds two operands. -/
def join (number : Nat) (a b : Chain) : Chain where
  terms := a.terms ++ b.terms
  constant := Bits.wrap128 (a.constant + b.constant)
  absorbed := number :: (a.absorbed ++ b.absorbed)
  constAdds := a.constAdds ++ b.constAdds ++ (if a.folded || b.folded then [number] else [])
  folded := false

/-- Whether a term comes before another: by key, then the added one first. -/
def termLe (s t : Bool × Canon) : Bool :=
  s.2.key < t.2.key || (s.2.key = t.2.key && (!s.1 || t.1))

/-- Takes the first term of opposite sign and equal key out of a list. -/
def takeOpposite (t : Bool × Canon) : List (Bool × Canon) → Option (Canon × List (Bool × Canon))
  | [] => none
  | s :: ss =>
    if s.1 ≠ t.1 ∧ s.2.key = t.2.key then some (s.2, ss)
    else (takeOpposite t ss).map fun (c, rest) => (c, s :: rest)

/-- Adds terms to those kept so far, where opposite ones cancel; gives the terms that are left and
the numbers of the source nodes that went away. -/
def cancel (kept : List (Bool × Canon)) : List (Bool × Canon) → List (Bool × Canon) × List Nat
  | [] => (kept, [])
  | t :: ts =>
    match takeOpposite t kept with
    | some (other, rest) =>
      let (left, gone) := cancel rest ts
      (left, other.allAbsorbed ++ t.2.allAbsorbed ++ gone)
    | none => cancel (kept ++ [t]) ts

/-- The width of signed operands added up one after another in a type. -/
def addUp (ty : IntType) : Option Width → List (Bool × Width) → Option Width
  | acc, [] => acc
  | none, (false, w) :: ws => addUp ty (some w) ws
  | none, (true, w) :: ws => addUp ty (some (.binary ty .sub (.settle ty 1 false) w none)) ws
  | some acc, (negated, w) :: ws =>
    addUp ty (some (.binary ty (if negated then .sub else .add) acc w none)) ws

/-- The width of a sum, worked out from its terms and its constant. -/
def sumInfo (ty : IntType) (terms : List (Bool × Canon)) (constant : Int) : Width :=
  let operands := terms.map fun t => (t.1, t.2.info)
  let last := if constant = 0 then [] else [(false, Width.const ty constant)]
  (addUp ty none (operands ++ last)).getD (.settle ty 1 false)

/-- The canonical form of source node `e`, whose operands form the given chain. -/
def toCanon (e : Expr Nat) (chain : Chain) : Canon :=
  let constant := if e.info.overflow then e.ty.reduce chain.constant else chain.constant
  let (terms, gone) := cancel [] (Sorting.sort termLe chain.terms)
  let absorbed := chain.absorbed ++ gone
  match terms with
  | [] => .const (.ofExpr e absorbed) (e.ty.reduce constant)
  | (negated, c) :: more =>
    if !negated ∧ more.isEmpty ∧ constant = 0 then c.wrap e (absorbed.filter (· ≠ e.tag))
    else
      let origin := Origin.ofExpr e absorbed
      let origin :=
        if terms.length = chain.terms.length then origin
        else { origin with info := sumInfo e.ty terms constant }
      .sum origin terms constant chain.constAdds

end Chain
end CustomIsa
