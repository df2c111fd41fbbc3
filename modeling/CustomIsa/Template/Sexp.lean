import CustomIsa.Expr.Width
import CustomIsa.Text.Line
import CustomIsa.Text.Numeral
/-! # Template text

A template is written as an S-expression: a name, or a parenthesis with an operator and its
operands. Names and operators may carry guards after colons, as in
`(shr:unsigned (add:nowrap rd rs1) 1)`. A guard is a condition on the value that the annotated part
is matched with. -/
namespace CustomIsa

/-- A condition on a matched value: it does not overflow, it is computed at the register width, it
may or may not be negative, it has at most so many bits. -/
inductive Guard where
  | noWrap
  | native
  | signed
  | unsigned
  | maxWidth (bits : Nat)
  deriving Repr, DecidableEq

namespace Guard

/-- Reads a guard. -/
def ofChars? (cs : List Char) : Option Guard :=
  if cs = "nowrap".toList then some .noWrap
  else if cs = "native".toList then some .native
  else if cs = "signed".toList then some .signed
  else if cs = "unsigned".toList then some .unsigned
  else ((Text.dropStem? "w<=".toList cs).bind Text.count32?).map .maxWidth

/-- Whether a value of the given width and type meets the guard on a target with registers of
`xlen` bits. -/
def holds (info : Width) (ty : IntType) (xlen : Nat) : Guard → Bool
  | .noWrap => !info.overflow
  | .native => ty.bits = xlen
  | .signed => info.signed
  | .unsigned => !info.signed
  | .maxWidth bits => info.width ≤ bits

end Guard

/-- The text of a template, taken apart. -/
inductive Sexp where
  | atom (name : String) (guards : List Guard)
  | app (head : String) (guards : List Guard) (args : List Sexp)

namespace Sexp

/-- Why a text is not an S-expression. -/
inductive Fault where
  | trailing (token : String)
  | unexpectedEnd
  | unbalanced
  | missingHead
  | missingClose
  | unknownGuard (text : String)
  deriving Repr, DecidableEq

/-- The wording of a fault. -/
def Fault.message : Fault → String
  | .trailing token => s!"unexpected `{token}` after template"
  | .unexpectedEnd => "unexpected end of template"
  | .unbalanced => "unbalanced `)`"
  | .missingHead => "expected an operator after `(`"
  | .missingClose => "missing `)`"
  | .unknownGuard text => s!"unknown guard `{text}`"

/-- The tokens of a template: parentheses, and the words between them. -/
def tokens (text : String) : List (List Char) :=
  Text.words (text.toList.flatMap fun c => if c = '(' || c = ')' then [' ', c, ' '] else [c])

/-- Reads guards; the first unknown one is the fault. -/
def readGuards : List (List Char) → Except Fault (List Guard)
  | [] => .ok []
  | g :: gs =>
    match Guard.ofChars? g with
    | none => .error (.unknownGuard (String.ofList g))
    | some guard => (readGuards gs).map (guard :: ·)

/-- Cuts a token into its name and its guards. -/
def splitGuards (token : List Char) : Except Fault (String × List Guard) :=
  match Text.splitAll (· = ':') token with
  | [] => .ok ("", [])
  | name :: guards => (readGuards guards).map (String.ofList name, ·)

/-- A parenthesis that is still open: its operator, guards, and operands so far, the last first. -/
structure Frame where
  head : String
  guards : List Guard
  args : List Sexp

/-- The expression of a parenthesis that closes. -/
def Frame.close (f : Frame) : Sexp := .app f.head f.guards f.args.reverse

/-- Hands a finished expression to the parenthesis around it; without one the text has to end. -/
def finish (s : Sexp) (rest : List (List Char)) : Except Fault Sexp :=
  match rest with
  | [] => .ok s
  | extra :: _ => .error (.trailing (String.ofList extra))

/-- Reads an expression inside the given open parentheses, the innermost first. -/
def readFrom (frames : List Frame) : List (List Char) → Except Fault Sexp
  | [] => .error (if frames.isEmpty then .unexpectedEnd else .missingClose)
  | [')'] :: rest =>
    match frames with
    | [] => .error .unbalanced
    | [f] => finish f.close rest
    | f :: g :: outer => readFrom ({ g with args := f.close :: g.args } :: outer) rest
  | ['('] :: rest =>
    match rest with
    | [] | ['('] :: _ | [')'] :: _ => .error .missingHead
    | head :: rest =>
      match splitGuards head with
      | .error e => .error e
      | .ok (name, guards) => readFrom (⟨name, guards, []⟩ :: frames) rest
  | word :: rest =>
    match splitGuards word with
    | .error e => .error e
    | .ok (name, guards) =>
      match frames with
      | [] => finish (.atom name guards) rest
      | f :: outer => readFrom ({ f with args := .atom name guards :: f.args } :: outer) rest

/-- Reads an S-expression from text. -/
def ofText (text : String) : Except Fault Sexp := readFrom [] (tokens text)

/-- The integer of at most 65 bits that a name spells in decimal, or in hexadecimal after `0x`. -/
def literal? (name : String) : Option Int :=
  Text.integer? ['x'] (Bits.fitsSigned · 65) name.toList

end Sexp
end CustomIsa
