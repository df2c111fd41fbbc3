import CustomIsa.Expr.Lexer
import CustomIsa.Ordered
/-! # Expressions from tokens

Unary operators and casts bind tightest, then the binary operators by their level, each of them to
the left, and the conditional last, to the right. A word in parentheses is a cast if the words there
name a type and the first of them is not a declared variable.

The recursion is bounded by a count that starts above twice the number of tokens: every second call
consumes a token, so the bound is never reached. -/
namespace CustomIsa

/-- The types of the declared variables. -/
abbrev Typing := NameMap IntType

namespace Expr

/-- The types that a literal may have, the first that holds its value counts. -/
def literalTypes (hex unsigned long : Bool) : List IntType :=
  match unsigned, long, hex with
  | false, false, false => [.i32, .i64]
  | false, false, true => [.i32, .u32, .i64, .u64]
  | true, false, _ => [.u32, .u64]
  | false, true, false => [.i64]
  | false, true, true => [.i64, .u64]
  | true, true, _ => [.u64]

/-- The type of a literal. -/
def typeOfLiteral? (value : Nat) (hex unsigned long : Bool) : Option IntType :=
  (literalTypes hex unsigned long).find? fun ty =>
    if ty.signed then Bits.fitsSigned value ty.bits else Bits.fitsUnsigned value ty.bits

/-- The words at the start of the tokens, and the tokens after them. -/
def leadingWords : List Token → List String × List Token
  | [] => ([], [])
  | t :: ts =>
    match t.lexeme with
    | .word name => ((name :: (leadingWords ts).1), (leadingWords ts).2)
    | _ => ([], t :: ts)

/-- The type of a cast whose opening parenthesis is before the tokens, and the tokens after it. -/
def castType? (vars : Typing) (tokens : List Token) : Option (IntType × List Token) :=
  match leadingWords tokens with
  | (first :: more, ⟨.symbol .closing, _⟩ :: rest) =>
    if vars.contains first then none
    else (IntType.ofWords? (first :: more)).map (·, rest)
  | _ => none

/-- The offset of the first token, or `stop` when there is none. -/
def offsetAt (stop : Nat) : List Token → Nat
  | [] => stop
  | t :: _ => t.offset

/-- The tokens after a symbol that has to come first. -/
def expect (stop : Nat) (s : Symbol) (tokens : List Token) : Except Fault (List Token) :=
  match tokens with
  | ⟨.symbol s', offset⟩ :: rest => if s' = s then .ok rest else .error ⟨offset, .expected s⟩
  | _ => .error ⟨offsetAt stop tokens, .expected s⟩

mutual

/-- Reads an operand: a variable, a literal, a parenthesis, or a unary operator or cast with its
operand. -/
def parseOperand (vars : Typing) (stop : Nat) :
    Nat → List Token → Except Fault (Expr Unit × List Token)
  | 0, _ => .error ⟨stop, .unexpectedEnd⟩
  | _ + 1, [] => .error ⟨stop, .unexpectedEnd⟩
  | fuel + 1, ⟨lexeme, offset⟩ :: rest =>
    match lexeme with
    | .symbol (.operator .sub) => do
      let (a, rest) ← parseOperand vars stop fuel rest
      pure (.unary () .neg a, rest)
    | .symbol .complement => do
      let (a, rest) ← parseOperand vars stop fuel rest
      pure (.unary () .not a, rest)
    | .symbol (.operator .add) => parseOperand vars stop fuel rest
    | .symbol .opening =>
      match castType? vars rest with
      | some (ty, rest) => do
        let (a, rest) ← parseOperand vars stop fuel rest
        pure (.cast () ty a, rest)
      | none => do
        let (a, rest) ← parseExpr vars stop fuel 0 rest
        let rest ← expect stop .closing rest
        pure (a, rest)
    | .word name =>
      match vars.get? name with
      | some ty => .ok (.var () name ty, rest)
      | none => .error ⟨offset, .undeclared name⟩
    | .integer value hex unsigned long =>
      match typeOfLiteral? value hex unsigned long with
      | some ty => .ok (.const () value ty, rest)
      | none => .error ⟨offset, .literalTooWide⟩
    | .symbol s => .error ⟨offset, .unexpected s⟩

/-- Reads an expression whose binary operators have at least the given level. -/
def parseExpr (vars : Typing) (stop : Nat) :
    Nat → Nat → List Token → Except Fault (Expr Unit × List Token)
  | 0, _, _ => .error ⟨stop, .unexpectedEnd⟩
  | fuel + 1, level, tokens => do
    let (a, rest) ← parseOperand vars stop fuel tokens
    parseRest vars stop fuel level a rest

/-- Reads the operators of at least the given level that follow `a`, with their right operands. A
conditional counts as level 1. -/
def parseRest (vars : Typing) (stop : Nat) :
    Nat → Nat → Expr Unit → List Token → Except Fault (Expr Unit × List Token)
  | 0, _, _, _ => .error ⟨stop, .unexpectedEnd⟩
  | fuel + 1, level, a, tokens =>
    match tokens with
    | ⟨.symbol .question, _⟩ :: rest =>
      if 1 < level then .ok (a, tokens)
      else do
        let (b, rest) ← parseExpr vars stop fuel 0 rest
        let rest ← expect stop .colon rest
        let (c, rest) ← parseExpr vars stop fuel 1 rest
        parseRest vars stop fuel level (.select () a b c) rest
    | ⟨.symbol (.operator op), _⟩ :: rest =>
      if op.level < level then .ok (a, tokens)
      else do
        let (b, rest) ← parseExpr vars stop fuel (op.level + 1) rest
        parseRest vars stop fuel level (.binary () op a b) rest
    | _ => .ok (a, tokens)

end

/-- Reads an expression that takes up all tokens; the text ends at `stop`. -/
def ofTokens (vars : Typing) (stop : Nat) (tokens : List Token) : Except Fault (Expr Unit) := do
  let (e, rest) ← parseExpr vars stop (2 * tokens.length + 2) 0 tokens
  match rest with
  | [] => pure e
  | t :: _ => .error ⟨t.offset, .trailingInput⟩

/-- Reads an expression from text. -/
def ofText (vars : Typing) (text : String) : Except Fault (Expr Unit) := do
  let tokens ← lex text
  ofTokens vars text.utf8ByteSize tokens

end Expr
end CustomIsa
