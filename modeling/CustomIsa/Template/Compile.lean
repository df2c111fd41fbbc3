import CustomIsa.Definition.Basic
import CustomIsa.Template.Basic
/-! # Compiling template text

`Template.ofText` compiles the text of a template against a definition. Every name is a literal or
an operand that the instruction reads, every input is read, and the topmost part is an operator. The
first problem is named, in the order of the text. Which operands were read is kept in flags that are
passed along (`Template.Compiling`): they are set as the names are met, and looked at in the end.

A nested addition, subtraction or negation without guards is gathered into the sum around it, and
does not have to have the number of operands that it needs elsewhere. -/
namespace CustomIsa
namespace Template

/-- Why a text is not a template of a definition. -/
inductive Fault where
  | text (fault : Sexp.Fault)
  | unknownOperand (name : String)
  | outputOnly (name : String)
  | addArity
  | arity (head : String) (wanted got : Nat)
  | unknownOperator (head : String)
  | constantSum
  | subtractedImmediate (name : String)
  | secondAbsorber
  | unusedInput (name : String)
  | bareRoot
  deriving Repr, DecidableEq

/-- The wording of a fault. -/
def Fault.message : Fault → String
  | .text fault => fault.message
  | .unknownOperand name => s!"template references unknown operand `{name}`"
  | .outputOnly name => s!"template reads output-only operand `{name}`"
  | .addArity => "`add` takes at least 2 operands"
  | .arity head wanted got => s!"`{head}` takes {wanted} operand(s), got {got}"
  | .unknownOperator head => s!"unknown operator `{head}`"
  | .constantSum => "a sum needs at least one non-constant term"
  | .subtractedImmediate name => s!"immediate `{name}` must be added, not subtracted"
  | .secondAbsorber => "a sum may absorb its constant into one immediate only"
  | .unusedInput name => s!"template never uses input operand `{name}`"
  | .bareRoot => "template root must be an operator"

/-- The operators that are gathered into sums. -/
inductive AdditiveOp where
  | add
  | sub
  | neg
  deriving Repr, DecidableEq

/-- What the head of a parenthesis stands for. -/
inductive Head where
  | additive (op : AdditiveOp)
  | monadic (op : MonadicOp)
  | dyadic (op : DyadicOp)
  deriving Repr, DecidableEq

/-- Whether the operator changes the sign of the operand at a position. -/
def AdditiveOp.negates (op : AdditiveOp) (position : Nat) : Bool :=
  match op with
  | .add => false
  | .sub => position = 1
  | .neg => true

/-- The additive operator of the given name. -/
def AdditiveOp.ofName? : String → Option AdditiveOp
  | "add" => some .add
  | "sub" => some .sub
  | "neg" => some .neg
  | _ => none

/-- The operator with two operands of the given name. -/
def dyadicOfName? : String → Option DyadicOp
  | "mul" => some .mul
  | "and" => some .and
  | "or" => some .or
  | "xor" => some .xor
  | "shl" => some .shl
  | "shr" => some .shr
  | "max" => some .max
  | "min" => some .min
  | "lt" => some .lt
  | "le" => some .le
  | "gt" => some .gt
  | "ge" => some .ge
  | "eq" => some .eq
  | "ne" => some .ne
  | _ => none

/-- The operator with one operand of the given name: `not`, or `trunc` and a width up to 64. -/
def monadicOfName? (name : String) : Option MonadicOp :=
  if name = "not" then some .not
  else
    (((Text.dropStem? "trunc".toList name.toList).bind Text.count32?).filter fun n =>
      1 ≤ n && n ≤ 64).map .trunc

/-- What the head of the given name stands for. -/
def Head.ofName? (name : String) : Option Head :=
  ((AdditiveOp.ofName? name).map .additive).or
    (((dyadicOfName? name).map .dyadic).or ((monadicOfName? name).map .monadic))

/-- Checks the number of operands of a head that was spelled `name`. -/
def checkArity (name : String) (head : Head) (got : Nat) : Except Fault Unit :=
  match head with
  | .additive .add => if got < 2 then .error .addArity else .ok ()
  | .additive .sub | .dyadic _ => if got = 2 then .ok () else .error (.arity name 2 got)
  | .additive .neg | .monadic _ => if got = 1 then .ok () else .error (.arity name 1 got)

/-- A flag for each operand of a definition. -/
abbrev Flags (d : Definition) := Vector Bool d.operands.length

/-- A step of compiling: it may fail, and sets the flags of the operands that it reads. -/
abbrev Compiling (d : Definition) := StateT (Flags d) (Except Fault)

/-- The operand that a name in a template reads; its flag is set. -/
def inputNamed (d : Definition) (name : String) : Compiling d Operand :=
  match d.operandIndex? name with
  | none => throw (.unknownOperand name)
  | some i => do
    let op := d.operands.get i
    if op.isInput then
      modify fun used => used.set i true i.isLt
      pure op
    else throw (.outputOnly name)

/-- The template of an operand. -/
def ofOperand (guards : List Guard) (op : Operand) : Template :=
  match op.kind with
  | .register => .register guards op
  | .immediate => .immediate guards op

/-- The template of a name. -/
def ofName (d : Definition) (guards : List Guard) (name : String) : Compiling d Template :=
  match Sexp.literal? name with
  | some value => pure (.const guards value)
  | none => do
    let op ← inputNamed d name
    pure (ofOperand guards op)

/-- The parts of a sum: signed terms, the constants added up, and the immediate that is added. -/
structure Gathered where
  terms : List (Bool × Template) := []
  constant : Int := 0
  absorber : Option Operand := none

namespace Gathered

/-- Adds a term. -/
def push (g : Gathered) (negated : Bool) (t : Template) : Gathered :=
  { g with terms := g.terms ++ [(negated, t)] }

/-- Adds an immediate. -/
def absorb (g : Gathered) (negated : Bool) (op : Operand) : Except Fault Gathered :=
  if negated then .error (.subtractedImmediate op.name)
  else if g.absorber.isSome then .error .secondAbsorber
  else .ok { g with absorber := some op }

/-- Adds the operand of the given name: an immediate as the absorber, a register as a term. -/
def pushOperand (d : Definition) (g : Gathered) (negated : Bool) (guards : List Guard)
    (name : String) : Compiling d Gathered :=
  match (d.operand? name).map Operand.kind with
  | some .immediate => do
    let op ← inputNamed d name
    g.absorb negated op
  | _ => do
    let t ← ofName d guards name
    pure (g.push negated t)

/-- Adds a name: a literal without guards to the constant, anything else as an operand. -/
def pushName (d : Definition) (g : Gathered) (negated : Bool) (guards : List Guard)
    (name : String) : Compiling d Gathered :=
  match guards, Sexp.literal? name with
  | [], some value => pure { g with constant := g.constant + (if negated then -value else value) }
  | _, _ => g.pushOperand d negated guards name

/-- The template of the gathered parts; a single added term stands for itself. -/
def toTemplate (g : Gathered) (guards : List Guard) : Except Fault Template :=
  match g.terms, g.constant, g.absorber with
  | [], _, _ => .error .constantSum
  | [(false, t)], 0, none => .ok (t.addGuards guards)
  | terms, constant, absorber => .ok (.sum guards terms constant absorber)

end Gathered

/-- The template of an operator applied to `count` operands; `args` are their templates one by one
and `sum` what they give when they are added up under an additive operator. -/
def apply {d : Definition} (name : String) (guards : List Guard) (count : Nat)
    (args : Compiling d (List Template)) (sum : AdditiveOp → Compiling d Gathered) :
    Compiling d Template :=
  match Head.ofName? name with
  | none => throw (.unknownOperator name)
  | some head =>
    match checkArity name head count with
    | .error e => throw e
    | .ok () =>
      match head with
      | .additive op => do
        let g ← sum op
        g.toTemplate guards
      | .monadic op => do
        match ← args with
        | [a] => pure (.monadic guards op a)
        | _ => throw (.arity name 1 count)
      | .dyadic op => do
        match ← args with
        | [a, b] => pure (.dyadic guards op a b)
        | _ => throw (.arity name 2 count)

/-- The additive operator of a nested parenthesis that is gathered into the sum around it. -/
def nestedOp? (name : String) (guards : List Guard) : Option AdditiveOp :=
  if guards = [] then AdditiveOp.ofName? name else none

mutual

/-- Compiles an S-expression as a part of its own. -/
def compile (d : Definition) : Sexp → Compiling d Template
  | .atom name guards => ofName d guards name
  | .app name guards args =>
    apply name guards args.length (compileAll d args) fun op => gatherAll d op false 0 {} args

/-- Compiles a list of operands. -/
def compileAll (d : Definition) : List Sexp → Compiling d (List Template)
  | [] => pure []
  | s :: ss => do
    let t ← compile d s
    let ts ← compileAll d ss
    pure (t :: ts)

/-- Adds an S-expression to the parts of the sum around it. -/
def gather (d : Definition) (negated : Bool) (g : Gathered) : Sexp → Compiling d Gathered
  | .atom name guards => g.pushName d negated guards name
  | .app name guards args =>
    match nestedOp? name guards with
    | some op => gatherAll d op negated 0 g args
    | none => do
      let t ← apply name guards args.length (compileAll d args)
        fun op => gatherAll d op false 0 {} args
      pure (g.push negated t)

/-- Adds the operands of an additive operator from a position on to the parts of a sum. -/
def gatherAll (d : Definition) (op : AdditiveOp) (negated : Bool) (position : Nat)
    (g : Gathered) : List Sexp → Compiling d Gathered
  | [] => pure g
  | s :: ss => do
    let g ← gather d (negated ^^ op.negates position) g s
    gatherAll d op negated (position + 1) g ss

end

/-- The first input whose flag is not set. -/
def unusedInput? (d : Definition) (used : Flags d) : Option Operand :=
  ((List.finRange d.operands.length).find? fun i =>
    (d.operands.get i).isInput && !used.get i).map d.operands.get

/-- The template that an S-expression gives for a definition; it reads every input, and its topmost
part is an operator. -/
def ofSexp (d : Definition) (s : Sexp) : Except Fault Template :=
  match compile d s (.replicate _ false) with
  | .error e => .error e
  | .ok (t, used) =>
    match unusedInput? d used with
    | some op => .error (.unusedInput op.name)
    | none => if t.isOperator then .ok t else .error .bareRoot

/-- The template that a text gives for a definition. -/
def ofText (d : Definition) (text : String) : Except Fault Template :=
  match Sexp.ofText text with
  | .error e => .error (.text e)
  | .ok s => ofSexp d s

end Template
end CustomIsa
