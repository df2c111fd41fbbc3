import CustomIsa.Canon.Build
import CustomIsa.Expr.Tree
import CustomIsa.Match.Candidate
/-! # Intrinsic calls

A call names a definition by its alias and binds the arguments to the inputs in declared order. The
bound instruction is lowered and encoded like a matched one. -/
namespace CustomIsa.Registry

/-- The definition with an alias. -/
def intrinsic (r : Registry) (name : String) : Except Failure Entry :=
  match r.byAlias? name with
  | some e => .ok e
  | none => .error (.unknownIntrinsic name)

/-- The prototype of an intrinsic. -/
def signature (r : Registry) (name : String) : Except Failure Signature :=
  (r.intrinsic name).map fun e => e.definition.signature name

/-- Why an argument does not fit an input, which stands at a position counted from one. -/
def argumentFault? (position : Nat) (op : Operand) (arg : Bound) : Option CallFault :=
  match op.kind, arg with
  | .register, _ => none
  | .immediate, .value _ => some (.notConstant position op.name)
  | .immediate, .imm value =>
    if op.inRange value then none
    else some (.outOfRange position op.name value op.immediateRange.1 op.immediateRange.2)

/-- Binds arguments to inputs from a position on. -/
def bindArguments (position : Nat) (bound : NameMap Bound) :
    List (Operand × Bound) → Except CallFault (NameMap Bound)
  | [] => .ok bound
  | (op, arg) :: rest =>
    match argumentFault? position op arg with
    | some fault => .error fault
    | none => bindArguments (position + 1) (bound.insert op.name arg) rest

/-- Binds the arguments of a call. -/
def bindCall (r : Registry) (name : String) (args : List Bound) :
    Except Failure BoundInstruction :=
  match r.intrinsic name with
  | .error failure => .error failure
  | .ok e =>
    let inputs := e.definition.inputs
    if inputs.length ≠ args.length then
      .error (.invalidCall name
        (.count inputs.length args.length (e.definition.signature name)))
    else
      match bindArguments 1 {} (inputs.zip args) with
      | .error fault => .error (.invalidCall name fault)
      | .ok operands => .ok ⟨e, operands⟩

/-- What an argument that is a source node is bound to: a constant if it folds to one of 64 bits. -/
def argumentOf (e : Expr Nat) : Bound :=
  match (Canon.ofExpr e).constant?.filter Bits.inInt64 with
  | some value => .imm value
  | none => .value e.tag

/-- Binds the arguments of a call that are source nodes. -/
def bindCallNodes (r : Registry) (name : String) (args : List (Expr Nat)) :
    Except Failure BoundInstruction :=
  r.bindCall name (args.map argumentOf)

/-- Binds a call, lowers it and encodes it. -/
def emitCall (r : Registry) (name : String) (args : List Bound) (a : Assigner) :
    Except Failure Word :=
  match r.bindCall name args with
  | .error failure => .error failure
  | .ok i => r.emit i a

end CustomIsa.Registry
