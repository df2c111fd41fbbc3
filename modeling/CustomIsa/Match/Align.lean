import CustomIsa.Canon.Build
import CustomIsa.Match.Candidate
/-! # Aligning templates with canonical forms

An alignment pairs every part of a template with a node of a canonical form: operators with equal
operators, where operands that may change places are tried in both orders; sums with sums of as
many terms, in every pairing of terms of equal sign; constants with equal constants; operands with
values that fit them. An operand that occurs twice has to meet equal values, and every guard has to
hold.

`align` gives all alignments that extend a state, in a fixed order; the first one that makes a
candidate counts. -/
namespace CustomIsa

/-- The shape of a node, if that is an operator or a sum. -/
def Canon.shape? : Canon → Option ShapeKey
  | .var _ _ | .const _ _ => none
  | .monadic _ op _ => some ⟨.monadic op, 1⟩
  | .dyadic _ op _ _ => some ⟨.dyadic op, 2⟩
  | .select _ _ _ _ => some ⟨.select, 3⟩
  | .sum _ terms _ _ => some ⟨.sum, terms.length⟩

namespace Match

/-- What an operand has met. -/
inductive Slot where
  | node (c : Canon)
  | imm (value : Int)

/-- What has been met so far: the operands, the source nodes replaced, and the guards that held. -/
structure State where
  slots : List (String × Slot) := []
  absorbed : List Nat := []
  guards : Nat := 0

namespace State

/-- The state after a node was replaced. -/
def absorb (s : State) (c : Canon) : State := { s with absorbed := s.absorbed ++ c.origin.absorbed }

/-- The state after an operand has met something for the first time. -/
def bind (s : State) (op : Operand) (slot : Slot) : State :=
  { s with slots := (op.name, slot) :: s.slots }

/-- The state after an operand has met a node, if that agrees with what it has met before. -/
def meetNode? (s : State) (op : Operand) (c : Canon) : Option State :=
  match s.slots.lookup op.name with
  | none => some (s.bind op (.node c))
  | some (.node before) => if before.key = c.key then some s else none
  | some (.imm _) => none

/-- The state after an operand has met a constant, if that agrees with what it has met before. -/
def meetImm? (s : State) (op : Operand) (value : Int) : Option State :=
  match s.slots.lookup op.name with
  | none => some (s.bind op (.imm value))
  | some (.imm before) => if before = value then some s else none
  | some (.node _) => none

end State

/-- The register width of the target, and the most terms that a sum may have. These are no more
than 64, since a word of 64 bits says which terms are used up. -/
structure Limits where
  xlen : Nat
  maxTerms : Nat
  capped : maxTerms ≤ 64
  deriving Repr, DecidableEq

/-- Whether a value of the given width can be held by a register operand: a register as wide as the
target takes every value of its width, a narrower one those of its type. -/
def fitsRegister (xlen : Nat) (op : Operand) (info : Width) : Bool :=
  if xlen ≤ op.width then info.width ≤ op.width else op.valueType.holds info.width info.signed

/-- The state after a register operand has met a node. -/
def meetRegister (limits : Limits) (op : Operand) (c : Canon) (s : State) : Option State :=
  if fitsRegister limits.xlen op c.info then s.meetNode? op c else none

/-- The state after an immediate operand has met a constant. -/
def meetImmediate (op : Operand) (value : Int) (s : State) : Option State :=
  if op.inRange value then s.meetImm? op value else none

/-- The state after the guards of a part held on a node. -/
def meetGuards (limits : Limits) (guards : List Guard) (c : Canon) (s : State) : Option State :=
  if guards.all (Guard.holds c.info c.ty limits.xlen) then
    some { s with guards := s.guards + guards.length }
  else none

/-- The state after the constant of a sum has met that of a template, or the immediate that absorbs
the difference; a difference of zero is not absorbed. -/
def meetConstant (constant : Int) (absorber : Option Operand) (met : Int) (s : State) :
    Option State :=
  match absorber with
  | none => if met = constant then some s else none
  | some op => if met = constant then none else meetImmediate op (met - constant) s

/-- The terms that are used up, by their positions. -/
abbrev Used := BitVec 64

/-- Whether the term at a position is used up. -/
def Used.has (used : Used) (position : Nat) : Bool := used &&& BitVec.twoPow 64 position ≠ 0

/-- Uses up the term at a position. -/
def Used.add (used : Used) (position : Nat) : Used := used ||| BitVec.twoPow 64 position

mutual

/-- The alignments of a template with a node that extend a state. -/
def align (limits : Limits) : Template → Canon → State → List State
  | .register guards op, c, s =>
    match meetGuards limits guards c s with
    | none => []
    | some s => (meetRegister limits op c s).toList
  | .immediate guards op, c, s =>
    match meetGuards limits guards c s, c.constant? with
    | some s, some value => ((meetImmediate op value s).map (·.absorb c)).toList
    | _, _ => []
  | .const guards value, c, s =>
    match meetGuards limits guards c s, c.constant? with
    | some s, some met => if met = value then [s.absorb c] else []
    | _, _ => []
  | .monadic guards op t, c, s =>
    match meetGuards limits guards c s, c with
    | some s, .monadic _ op' a => if op' = op then align limits t a (s.absorb c) else []
    | _, _ => []
  | .dyadic guards op t u, c, s =>
    match meetGuards limits guards c s, c with
    | some s, .dyadic _ op' a b =>
      if op' = op then
        let s := s.absorb c
        let direct := (align limits t a s).flatMap (align limits u b)
        match ShapeKey.rule? ⟨.dyadic op, 2⟩ with
        | some .ordered => direct
        | some .commutative => direct ++ (align limits t b s).flatMap (align limits u a)
        | _ => []
      else []
    | _, _ => []
  | .sum guards terms constant absorber, c, s =>
    match meetGuards limits guards c s, c with
    | some s, .sum _ met metConstant _ =>
      if met.length = terms.length ∧ met.length ≤ limits.maxTerms then
        match meetConstant constant absorber metConstant s with
        | none => []
        | some s => alignTerms limits terms met 0 (s.absorb c)
      else []
    | _, _ => []

/-- The alignments of signed terms with terms met that are not used up, each used once. -/
def alignTerms (limits : Limits) :
    List (Bool × Template) → List (Bool × Canon) → Used → State → List State
  | [], _, _, s => [s]
  | (negated, t) :: ts, met, used, s =>
    met.zipIdx.flatMap fun (m, position) =>
      if used.has position ∨ m.1 ≠ negated then []
      else (align limits t m.2 s).flatMap (alignTerms limits ts met (used.add position))

end

/-! The search for each kind of part at a node of the same kind, after its guards. -/

section Parts
variable {limits : Limits} {guards : List Guard} (o : Origin) (s : State)

theorem align_register (op : Operand) (c : Canon) : align limits (.register guards op) c s =
    (meetGuards limits guards c s).elim [] fun s => (meetRegister limits op c s).toList := by
  rw [align]
  cases meetGuards limits guards c s <;> rfl

theorem align_monadic (op op' : MonadicOp) (t : Template) (a : Canon) :
    align limits (.monadic guards op t) (.monadic o op' a) s =
      (meetGuards limits guards (.monadic o op' a) s).elim [] fun s =>
        if op' = op then align limits t a (s.absorb (.monadic o op' a)) else [] := by
  cases h : meetGuards limits guards (.monadic o op' a) s <;> simp [align, h]

theorem align_dyadic (op op' : DyadicOp) (t u : Template) (a b : Canon) :
    align limits (.dyadic guards op t u) (.dyadic o op' a b) s =
      (meetGuards limits guards (.dyadic o op' a b) s).elim [] fun s =>
        if op' = op then
          let s := s.absorb (.dyadic o op' a b)
          let direct := (align limits t a s).flatMap (align limits u b)
          if op.commutes then direct ++ (align limits t b s).flatMap (align limits u a) else direct
        else [] := by
  have hrule : ShapeKey.rule? ⟨.dyadic op, 2⟩ =
      some (if op.commutes then .commutative else .ordered) := rfl
  cases h : meetGuards limits guards (.dyadic o op' a b) s with
  | none => simp [align, h]
  | some s => cases hcomm : op.commutes <;> simp [align, h, hrule, hcomm]

theorem align_sum (terms : List (Bool × Template)) (constant : Int) (absorber : Option Operand)
    (met : List (Bool × Canon)) (metConstant : Int) (adds : List Nat) :
    align limits (.sum guards terms constant absorber) (.sum o met metConstant adds) s =
      (meetGuards limits guards (.sum o met metConstant adds) s).elim [] fun s =>
        if met.length = terms.length ∧ met.length ≤ limits.maxTerms then
          (meetConstant constant absorber metConstant s).toList.flatMap fun s =>
            alignTerms limits terms met 0 (s.absorb (.sum o met metConstant adds))
        else [] := by
  cases h : meetGuards limits guards (.sum o met metConstant adds) s with
  | none => simp [align, h]
  | some s =>
    cases hconst : meetConstant constant absorber metConstant s <;> simp [align, h, hconst]

end Parts

/-- What an operand is bound to; nothing can be bound to a synthetic node, and constants have 64
bits. -/
def boundOf? : Slot → Option Bound
  | .node c => if c.origin.synthetic then none else some (.value c.source)
  | .imm value => if Bits.inInt64 value then some (.imm value) else none

/-- Adds what the operands have met to a map, if all of that can be bound. -/
def bindSlots (s : State) (bound : NameMap Bound) : List Operand → Option (NameMap Bound)
  | [] => some bound
  | op :: ops =>
    match s.slots.lookup op.name with
    | none => bindSlots s bound ops
    | some slot => (boundOf? slot).bind fun b => bindSlots s (bound.insert op.name b) ops

/-- The candidate that an alignment of a definition with a node makes. -/
def toCandidate (e : Entry) (c : Canon) (s : State) : Option Candidate :=
  (bindSlots s {} e.definition.operands).map fun operands =>
    let absorbed := Candidate.distinct s.absorbed
    { instruction := ⟨e, operands⟩
      score := ⟨c.origin.source.size, absorbed.length, s.guards⟩
      root := c.source
      absorbed }

/-- The candidate that the template of a definition makes at a node. -/
def attempt (limits : Limits) (e : Entry) (c : Canon) : Option Candidate :=
  e.template.bind fun t => (align limits t c {}).findSome? (toCandidate e c)

end Match
end CustomIsa
