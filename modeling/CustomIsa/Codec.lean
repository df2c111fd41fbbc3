import CustomIsa.Failure
import CustomIsa.Ordered
/-! # Operand values and words

`Codec.encode` packs operand values into a word, and `Codec.extract` reads them back out of its
bits. Both look at one definition only. -/
namespace CustomIsa.Codec

/-- The pattern that stands for a value in the fields of an operand; none if it is out of range. -/
def pattern? (op : Operand) (value : Int) : Option Nat :=
  match op.kind with
  | .register =>
    if (op.bias : Int) ≤ value ∧ value < Register.count then some (value - op.bias).toNat else none
  | .immediate =>
    if op.inRange value then some (value % 2 ^ min op.width 64).toNat else none

/-- The bits of a pattern that a segment carries, in their place in the word. -/
def place (pattern : Nat) (s : Segment) : Nat :=
  if s.lo < 64 then ((pattern >>> s.shift) &&& Bits.lowMask s.length) <<< s.lo else 0

/-- The bits of a word that a segment carries, in their place in the pattern. -/
def pick (bits : Nat) (s : Segment) : Nat :=
  ((bits >>> s.lo) &&& Bits.lowMask s.length) <<< s.offset

/-- Adds the operands of a definition to the bits of a word. -/
def encodeOperands (d : Definition) (bindings : Bindings) (bits : Nat) :
    List Operand → Except Failure Nat
  | [] => .ok bits
  | op :: ops =>
    match bindings.get? op.name with
    | none => .error (.missingOperand d.mnemonic op.name)
    | some value =>
      match pattern? op value with
      | none => .error (.overflow d.mnemonic op.name value)
      | some pattern =>
        if pattern &&& (d.layout.coverage op.name).2 ≠ pattern then
          .error (.overflow d.mnemonic op.name value)
        else
          let bits := (d.layout.segments op.name).foldl (fun acc s => acc ||| place pattern s) bits
          encodeOperands d bindings bits ops

/-- Packs operand values into a word. Every name has to be an operand, every operand has to have a
value, and the value has to fit the operand and its fields. -/
def encode (d : Definition) (bindings : Bindings) : Except Failure Word :=
  match bindings.names.find? fun name => (d.operand? name).isNone with
  | some name => .error (.unknownOperand d.mnemonic name)
  | none =>
    (encodeOperands d bindings d.layout.matchBits d.operands).map (Word.ofBits d.wordSize)

/-- The value that a pattern stands for in an operand. -/
def valueOf (op : Operand) (pattern : Nat) : Int :=
  match op.kind with
  | .register => pattern + op.bias
  | .immediate => Bits.signExtend pattern (if op.signed then op.width else 64)

/-- The value of an operand in the bits of a word. -/
def extractOperand (d : Definition) (bits : Nat) (op : Operand) : Int :=
  valueOf op ((d.layout.segments op.name).foldl (fun acc s => acc ||| pick bits s) 0)

/-- The operand values in the bits of a word. -/
def extract (d : Definition) (bits : Nat) : Bindings :=
  .ofList (d.operands.map fun op => (op.name, extractOperand d bits op))

end CustomIsa.Codec
