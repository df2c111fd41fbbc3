import CustomIsa.Registry.Basic
/-! # Bound instructions and candidates

A bound instruction is a definition whose inputs are bound to source nodes or constants; a register
assigner says in which register each value lives, and with it the instruction is lowered to operand
values. A candidate is an instruction that computes a source node, with a score that says how
specific it is. -/
namespace CustomIsa

/-- What an operand is bound to: the value of a source node, by number, or a constant. -/
inductive Bound where
  | value (node : Nat)
  | imm (value : Int)
  deriving Repr, DecidableEq

/-- The text of what an operand is bound to. -/
def Bound.render : Bound → String
  | .value node => s!"%{node}"
  | .imm n => toString n

/-- A definition with its inputs bound. -/
structure BoundInstruction where
  entry : Entry
  operands : NameMap Bound

/-- A choice of registers, made one operand after another. -/
structure Assigner where
  State : Type
  start : State
  assign : State → Operand → Option Bound → Except Failure (Nat × State)

namespace Assigner

/-- Takes the register of each operand from a map. -/
def fixed (registers : NameMap Nat) : Assigner where
  State := Unit
  start := ()
  assign := fun _ op _ =>
    match registers.get? op.name with
    | some number => .ok (number, ())
    | none => .error (.invalidOperand op.name .unassigned)

/-- The next register number, and the registers given to source nodes so far. -/
structure Running where
  next : Nat
  given : List (Nat × Nat) := []

/-- The register for a binding: a source node keeps its register, and anything else takes the
next. -/
def Running.take (s : Running) (bound : Option Bound) : Nat × Running :=
  match bound with
  | some (.value node) =>
    match s.given.lookup node with
    | some number => (number, s)
    | none => (s.next, ⟨s.next + 1, (node, s.next) :: s.given⟩)
  | _ => (s.next, { s with next := s.next + 1 })

/-- Gives registers one after another from `first` on. -/
def sequential (first : Nat) : Assigner where
  State := Running
  start := { next := first }
  assign := fun s _ bound => .ok (s.take bound)

/-- Gives registers one after another from the first argument register on, as long as there are
any. -/
def sample : Assigner where
  State := Running
  start := { next := Register.firstArgument }
  assign := fun s op bound =>
    let (number, s) := s.take bound
    if number < Register.count then .ok (number, s)
    else .error (.invalidOperand op.name .outOfRegisters)

end Assigner

namespace BoundInstruction

/-- The values of operands, with registers from an assigner. -/
def lowerFrom (i : BoundInstruction) (a : Assigner) (s : a.State) (bindings : Bindings) :
    List Operand → Except Failure Bindings
  | [] => .ok bindings
  | op :: ops =>
    match op.kind, i.operands.get? op.name with
    | .register, bound =>
      match a.assign s op bound with
      | .error failure => .error failure
      | .ok (number, s) => lowerFrom i a s (bindings.insert op.name number) ops
    | .immediate, some (.imm value) => lowerFrom i a s (bindings.insert op.name value) ops
    | .immediate, other =>
      .error (.invalidOperand (other.elim "<none>" Bound.render) (.notConstant op.name))

/-- The values of all operands, with registers from an assigner. -/
def lower (i : BoundInstruction) (a : Assigner) : Except Failure Bindings :=
  i.lowerFrom a a.start {} i.entry.definition.operands

end BoundInstruction

/-- Lowers a bound instruction and encodes it. -/
def Registry.emit (r : Registry) (i : BoundInstruction) (a : Assigner) : Except Failure Word :=
  match i.lower a with
  | .error failure => .error failure
  | .ok bindings => r.encode i.entry bindings

/-- How specific a candidate is: the number of source nodes it computes, of those that it replaces
itself, and of guards that held. -/
structure Score where
  covered : Nat
  absorbed : Nat
  guards : Nat
  deriving Repr, DecidableEq

/-- Whether a score is at most another, compared component by component. -/
def Score.le (a b : Score) : Bool :=
  a.covered < b.covered || (a.covered = b.covered &&
    (a.absorbed < b.absorbed || (a.absorbed = b.absorbed && a.guards ≤ b.guards)))

/-- An instruction that computes a source node: the node's number, the numbers of the source nodes
that it replaces, and those among them that add a rounding constant. -/
structure Candidate where
  instruction : BoundInstruction
  score : Score
  root : Nat
  absorbed : List Nat
  consumed : List Nat := []

namespace Candidate

/-- The name of the instruction. -/
def name (c : Candidate) : String := c.instruction.entry.name

/-- What an operand is bound to. -/
def binding? (c : Candidate) (operand : String) : Option Bound :=
  c.instruction.operands.get? operand

/-- Puts a number into an increasing list, unless it is there. -/
def insertNumber (n : Nat) : List Nat → List Nat
  | [] => [n]
  | m :: ms => if n < m then n :: m :: ms else if n = m then m :: ms else m :: insertNumber n ms

/-- The numbers of a list in increasing order, each once. -/
def distinct (ns : List Nat) : List Nat := ns.foldr insertNumber []

end Candidate
end CustomIsa
