import CustomIsa.Match.Align
/-! # Rounding forms

A right shift by `k` rounds to the nearest number if `2 ^ (k - 1)` is added before. The rounding
form of a definition is a candidate at a shift whose operand is a sum with exactly that constant, if
the template of the definition aligns with the shift after the constant is taken out of the sum. -/
namespace CustomIsa.Match

/-- A right shift of a sum that rounds: the node without the rounding constant, the sum, and the
source nodes that add the constant. -/
structure RoundingShift where
  stripped : Canon
  sum : Canon
  consumed : List Nat

/-- Marks a node as made for one attempt only. -/
def markSynthetic (o : Origin) : Origin := { o with synthetic := true }

/-- The operand of a shift without the constant of the sum; a single added term stands for
itself. -/
def stripConstant (o : Origin) (terms : List (Bool × Canon)) : Canon :=
  match terms with
  | [(false, c)] => c
  | _ => .sum (markSynthetic o) terms 0 []

/-- The rounding shift that a node is. -/
def roundingShift? : Canon → Option RoundingShift
  | .dyadic o .shr sum@(.sum so terms constant adds) amount =>
    match amount.constant? with
    | some k =>
      if 1 ≤ k ∧ k ≤ 127 ∧ terms ≠ [] ∧ constant = 2 ^ (k.toNat - 1) then
        some ⟨.dyadic (markSynthetic o) .shr (stripConstant so terms) amount, sum, adds⟩
      else none
    | none => none
  | _ => none

/-- The candidate for the rounding form `variant` of `base` at a rounding shift. -/
def attemptRounding (limits : Limits) (shift : RoundingShift) (base variant : Entry) :
    Option Candidate :=
  (attempt limits base shift.stripped).map fun c =>
    let absorbed := Candidate.distinct (c.absorbed ++ shift.sum.origin.absorbed)
    { c with
      instruction := { c.instruction with entry := variant }
      consumed := shift.consumed
      absorbed
      score := { c.score with absorbed := absorbed.length } }

/-- The candidates for rounding forms at a node. -/
def roundingCandidates (limits : Limits) (r : Registry) (c : Canon) : List Candidate :=
  match roundingShift? c with
  | none => []
  | some shift =>
    r.roundingPairs.filterMap fun (base, variant) => attemptRounding limits shift base variant

end CustomIsa.Match
