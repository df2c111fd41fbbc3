import CustomIsa.Definition.Check
import CustomIsa.Directory
import CustomIsa.Expr.Token
import CustomIsa.Template.Compile
/-! # Failures

Everything that can go wrong, each with its cause. A malformed set of extensions, which breaks a
rule of `Registry.Fault` when it is loaded, ends a run; all other failures concern a single line,
word, call or expression. `Failure.message` has the wording. -/
namespace CustomIsa

namespace Registry

/-- A rule that is broken by a set of extensions, or by one of its definitions. -/
inductive Fault where
  | unsupportedXlen (xlen : Nat)
  | invalidNamespace
  | definition (fault : Definition.Fault)
  | duplicateMnemonic
  | duplicateAlias (name : String)
  | ambiguousDecode (other : String)
  | template (fault : Template.Fault)
  | unmatchableRoot
  | roundingTemplate
  | noRoundingBase (base : String)
  | baseWithoutTemplate (base : String)
  | operandsDiffer (base : String)
  | secondVariant (base : String)
  deriving Repr, DecidableEq

/-- The wording of a fault. -/
def Fault.message : Fault → String
  | .unsupportedXlen xlen => s!"unsupported xlen {xlen}"
  | .invalidNamespace => "invalid namespace"
  | .definition fault => fault.message
  | .duplicateMnemonic => "duplicate mnemonic"
  | .duplicateAlias name => s!"intrinsic `{name}` is declared twice"
  | .ambiguousDecode other => s!"decodes ambiguously with `{other}`"
  | .template fault => s!"template: {fault.message}"
  | .unmatchableRoot => "template root cannot be matched"
  | .roundingTemplate => "a rounding variant takes its base's template"
  | .noRoundingBase base => s!"rounding base `{base}` does not exist"
  | .baseWithoutTemplate base => s!"rounding base `{base}` has no template"
  | .operandsDiffer base => s!"operands differ from rounding base `{base}`"
  | .secondVariant base => s!"`{base}` already has a rounding variant"

end Registry

/-- Why the arguments of a call do not fit its intrinsic. -/
inductive CallFault where
  | count (expected got : Nat) (signature : Signature)
  | notConstant (position : Nat) (operand : String)
  | outOfRange (position : Nat) (operand : String) (value lo hi : Int)
  deriving Repr, DecidableEq

/-- Why a text or value cannot stand for an operand. -/
inductive OperandFault where
  | count (mnemonic : String) (expected got : Nat)
  | notARegister (operand : String)
  | notAnInteger (operand : String)
  | notConstant (operand : String)
  | unassigned
  | outOfRegisters
  deriving Repr, DecidableEq

/-- A failure. -/
inductive Failure where
  | malformed (subject : String) (fault : Registry.Fault)
  | ambiguous (root : Nat) (names : List String)
  | unknownIntrinsic (name : String)
  | invalidCall (name : String) (fault : CallFault)
  | overflow (mnemonic operand : String) (value : Int)
  | missingOperand (mnemonic operand : String)
  | unknownOperand (mnemonic operand : String)
  | shadowed (name winner : String) (word : Word)
  | noMatch (word : Word)
  | truncated (truncation : Truncation)
  | unknownMnemonic (name : String)
  | invalidOperand (text : String) (fault : OperandFault)
  | expression (fault : Expr.Fault)
  | settings
  | document (origin : String)
  | unreadable (fault : FileFault)
  deriving Repr, DecidableEq

/-- The wording of a call fault. -/
def CallFault.message : CallFault → String
  | .count expected got signature =>
    s!"expected {expected} argument(s), got {got}; signature is `{signature.render}`"
  | .notConstant position operand => s!"argument {position} (`{operand}`) must be a constant"
  | .outOfRange position operand value lo hi =>
    s!"argument {position} (`{operand}`) = {value} is outside {lo}..={hi}"

/-- The wording of an operand fault. -/
def OperandFault.message : OperandFault → String
  | .count mnemonic expected got => s!"`{mnemonic}` takes {expected} operand(s), got {got}"
  | .notARegister operand => s!"expected a register for `{operand}`"
  | .notAnInteger operand => s!"expected an integer for `{operand}`"
  | .notConstant operand => s!"`{operand}` needs a constant"
  | .unassigned => "no register assigned"
  | .outOfRegisters => "ran out of sample registers"

namespace Failure

/-- Whether a run cannot go on. -/
def isFatal : Failure → Bool
  | .malformed _ _ => true
  | _ => false

/-- The wording of a failure. -/
def message : Failure → String
  | .malformed subject fault => s!"malformed extension spec `{subject}`: {fault.message}"
  | .ambiguous root names => s!"ambiguous match at %{root}: " ++ ", ".intercalate names
  | .unknownIntrinsic name => s!"unknown intrinsic `{name}`"
  | .invalidCall name fault => s!"invalid call to `{name}`: {fault.message}"
  | .overflow mnemonic operand value =>
    s!"operand `{operand}` of `{mnemonic}` does not fit its encoding: {value}"
  | .missingOperand mnemonic operand => s!"missing operand `{operand}` for `{mnemonic}`"
  | .unknownOperand mnemonic operand => s!"`{mnemonic}` has no operand named `{operand}`"
  | .shadowed name winner word => s!"encoding {word.render} of `{name}` is captured by `{winner}`"
  | .noMatch word => s!"no instruction matches {word.render}"
  | .truncated t =>
    s!"truncated instruction at offset {t.offset}: need {t.needed} bytes, {t.available} available"
  | .unknownMnemonic name => s!"unknown mnemonic `{name}`"
  | .invalidOperand text fault => s!"invalid operand `{text}`: {fault.message}"
  | .expression fault => s!"parse error at offset {fault.offset}: {fault.cause.message}"
  | .settings => "invalid configuration"
  | .document origin => s!"invalid extension spec {origin}"
  | .unreadable fault => fault.message

end Failure

end CustomIsa
