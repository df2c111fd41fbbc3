import CustomIsa.Expr.Basic
/-! # Tokens of expression text

Expression text consists of words, integer literals and symbols. A fault in it has a cause and the
offset in bytes at which it was found. -/
namespace CustomIsa.Expr

/-- A symbol of expression text; `+` and `-` are written alike as unary and binary operators. -/
inductive Symbol where
  | operator (op : BinaryOp)
  | complement
  | opening
  | closing
  | question
  | colon
  deriving Repr, DecidableEq

/-- The spelling of a symbol. -/
def Symbol.text : Symbol → String
  | .operator op => op.symbol
  | .complement => "~"
  | .opening => "("
  | .closing => ")"
  | .question => "?"
  | .colon => ":"

/-- A word, a literal with what its spelling says of its type, or a symbol. -/
inductive Lexeme where
  | word (name : String)
  | integer (value : Nat) (hex unsigned long : Bool)
  | symbol (s : Symbol)
  deriving Repr, DecidableEq

/-- A lexeme and the offset at which it starts. -/
structure Token where
  lexeme : Lexeme
  offset : Nat
  deriving Repr, DecidableEq

/-- Why a text is not an expression. -/
inductive Cause where
  | malformedLiteral
  | unsupportedCharacter (c : Char)
  | trailingInput
  | expected (s : Symbol)
  | unexpectedEnd
  | unexpected (s : Symbol)
  | undeclared (name : String)
  | literalTooWide
  | notANode (number : Nat)
  deriving Repr, DecidableEq

/-- A cause and the offset at which it was found. -/
structure Fault where
  offset : Nat
  cause : Cause
  deriving Repr, DecidableEq

/-- The wording of a cause. -/
def Cause.message : Cause → String
  | .malformedLiteral => "malformed integer literal"
  | .unsupportedCharacter c => s!"unsupported character `{c}`"
  | .trailingInput => "unexpected trailing input"
  | .expected s => s!"expected `{s.text}`"
  | .unexpectedEnd => "unexpected end of expression"
  | .unexpected s => s!"unexpected `{s.text}`"
  | .undeclared name => s!"undeclared variable `{name}`"
  | .literalTooWide => "integer literal does not fit 64 bits"
  | .notANode number => s!"root %{number} is not a node of this tree"

end CustomIsa.Expr
