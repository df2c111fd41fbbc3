import CustomIsa.Definition.Basic
import CustomIsa.Operand
import CustomIsa.Text.Line
/-! # Checking a definition

`Definition.check` accepts a definition whose mnemonic is a single word, whose layout passes
`Layout.check`, and whose operands each have a name of their own, a width of 1 to 64 bits and
fields that can carry them. It names the first rule that fails, in the order

* mnemonic, layout,
* for each operand its name, width and bias,
* fields without an operand,
* for each operand its fields. -/
namespace CustomIsa.Definition

/-- A rule that a definition breaks. -/
inductive Fault where
  | mnemonic
  | layout (fault : Layout.Fault)
  | duplicateOperand (operand : String)
  | width (operand : String) (width : Nat)
  | immediateBias (operand : String)
  | biasRange (operand : String) (bias : Nat)
  | undeclaredField (operand : String)
  | noField (operand : String)
  | segmentTooHigh (operand : String) (hi lo width : Nat)
  | sharedBits (operand : String)
  | severalFields (operand : String)
  | registerField (operand : String)
  | registerReach (operand : String) (bias : Nat)
  deriving Repr, DecidableEq

/-- The wording of a fault. -/
def Fault.message : Fault → String
  | .mnemonic => "invalid mnemonic"
  | .layout fault => fault.message
  | .duplicateOperand op => s!"duplicate operand `{op}`"
  | .width op bits => s!"operand `{op}` has width {bits}"
  | .immediateBias op => s!"immediate `{op}` cannot have a register bias"
  | .biasRange op bias => s!"register bias {bias} of `{op}` is out of range"
  | .undeclaredField op => s!"field names undeclared operand `{op}`"
  | .noField op => s!"operand `{op}` has no field"
  | .segmentTooHigh op hi lo bits =>
    s!"segment [{hi}:{lo}] of `{op}` exceeds its {bits}-bit width"
  | .sharedBits op => s!"segments of `{op}` carry the same bits"
  | .severalFields op => s!"register `{op}` must use one field"
  | .registerField op => s!"register field of `{op}` must be 1..=5 bits at offset 0"
  | .registerReach op bias => s!"register field of `{op}` with bias {bias} reaches past x31"

/-- The first rule that an operand breaks on its own, where `seen` are the names before it. -/
def operandFault? (seen : List String) (op : Operand) : Option Fault :=
  if op.name ∈ seen then some (.duplicateOperand op.name)
  else if op.width < 1 ∨ 64 < op.width then some (.width op.name op.width)
  else if op.bias ≠ 0 ∧ ¬op.isRegister then some (.immediateBias op.name)
  else if Register.count ≤ op.bias then some (.biasRange op.name op.bias)
  else none

/-- The first rule that one of the operands breaks on its own. -/
def operandsFault? (seen : List String) : List Operand → Option Fault
  | [] => none
  | op :: ops => (operandFault? seen op).or (operandsFault? (op.name :: seen) ops)

/-- The first segment of an immediate that lies above its width, or that carries bits which the
segments before it, with the value bits `covered`, carry already. -/
def immediateFault? (op : Operand) (covered : Nat) : List Segment → Option Fault
  | [] => none
  | s :: ss =>
    if op.width < s.offset + s.length then some (.segmentTooHigh op.name s.hi s.lo op.width)
    else if covered &&& s.valueMask ≠ 0 then some (.sharedBits op.name)
    else immediateFault? op (covered ||| s.valueMask) ss

/-- The rule that the fields of a register break: there is one, of at most five bits from bit zero
of the number on, and with the bias it stays within the registers. -/
def registerFault? (op : Operand) : List Segment → Option Fault
  | [s] =>
    if s.offset ≠ 0 ∨ 5 < s.length then some (.registerField op.name)
    else if Register.count ≤ op.bias + 2 ^ s.length - 1 then some (.registerReach op.name op.bias)
    else none
  | _ => some (.severalFields op.name)

/-- The rule that the fields of an operand break. -/
def fieldsFault? (op : Operand) (segments : List Segment) : Option Fault :=
  if segments = [] then some (.noField op.name)
  else
    match op.kind with
    | .immediate => immediateFault? op 0 segments
    | .register => registerFault? op segments

/-- The first segment whose operand is not declared. -/
def undeclared? (d : Definition) : Option Segment :=
  d.layout.fields.find? fun s => (d.operand? s.operand).isNone

/-- The first rule that the definition breaks after its layout. -/
def laterFault? (d : Definition) : Option Fault :=
  ((operandsFault? [] d.operands).or (d.undeclared?.map fun s => .undeclaredField s.operand)).or
    (d.operands.findSome? fun op => fieldsFault? op (d.layout.segments op.name))

/-- Checks a definition by itself. -/
def check (d : Definition) : Except Fault Unit :=
  if d.mnemonic = "" ∨ Text.hasBlank d.mnemonic then .error .mnemonic
  else
    match d.layout.check d.wordSize.bits with
    | .error fault => .error (.layout fault)
    | .ok () =>
      match d.laterFault? with
      | some fault => .error fault
      | none => .ok ()

end CustomIsa.Definition
