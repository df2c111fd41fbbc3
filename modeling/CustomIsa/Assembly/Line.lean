import CustomIsa.Registry.Basic
/-! # Assembly lines

A line has a qualified name and operands in declared order, separated by commas; a `#` starts a
comment. Registers have numeric or calling-convention names, immediates are decimal or
hexadecimal. -/
namespace CustomIsa

namespace Assembly

/-- The integer of 64 bits that a text spells in decimal, or in hexadecimal after `0x` or `0X`. -/
def immediate? (text : String) : Option Int :=
  Text.integer? ['x', 'X'] Bits.inInt64 text.toList

/-- The value of an operand as written. -/
def operandValue (op : Operand) (text : String) : Except Failure Int :=
  match op.kind with
  | .register =>
    match Register.ofName? text with
    | some number => .ok number
    | none => .error (.invalidOperand text (.notARegister op.name))
  | .immediate =>
    match immediate? text with
    | some value => .ok value
    | none => .error (.invalidOperand text (.notAnInteger op.name))

/-- Binds operands as written, one after another. -/
def bindTexts (bindings : Bindings) : List (Operand × String) → Except Failure Bindings
  | [] => .ok bindings
  | (op, text) :: rest =>
    match operandValue op text with
    | .error failure => .error failure
    | .ok value => bindTexts (bindings.insert op.name value) rest

/-- The name and the operand text of a line. -/
def splitLine (line : String) : String × List Char :=
  let code := Text.trimChars (line.toList.takeWhile (· ≠ '#'))
  match Text.splitFirst Text.isBlank code with
  | some (name, rest) => (String.ofList name, Text.trimChars rest)
  | none => (String.ofList code, [])

/-- The operands in operand text. -/
def splitOperands (text : List Char) : List String :=
  if text = [] then []
  else (Text.splitAll (· = ',') text).map fun piece => String.ofList (Text.trimChars piece)

end Assembly

namespace Registry
open Assembly

/-- Reads a line of assembly text. -/
def parseLine (r : Registry) (line : String) : Except Failure (Entry × Bindings) :=
  let (name, rest) := splitLine line
  match r.find? name with
  | none => .error (.unknownMnemonic name)
  | some e =>
    let texts := splitOperands rest
    let operands := e.definition.operands
    if texts.length ≠ operands.length then
      .error (.invalidOperand (String.ofList rest) (.count name operands.length texts.length))
    else (bindTexts {} (operands.zip texts)).map (e, ·)

/-- Assembles a line. -/
def assemble (r : Registry) (line : String) : Except Failure Word :=
  match r.parseLine line with
  | .error failure => .error failure
  | .ok (e, bindings) => r.encode e bindings

end Registry
end CustomIsa
