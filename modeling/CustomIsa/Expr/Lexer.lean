import CustomIsa.Expr.Token
import CustomIsa.Text.Numeral
/-! # Cutting expression text into tokens

At each place the longest token counts. Only spaces, tabs, line breaks and form feeds may stand
between tokens. All tokens consist of ASCII characters, so the offset of a token in characters, or
of the first character that starts none, is also its offset in bytes. -/
namespace CustomIsa.Expr

/-- Whether the character may stand between tokens. -/
def isSpace (c : Char) : Bool :=
  c = ' ' || c = '\t' || c = '\n' || c = '\x0c' || c = '\r'

/-- Whether the character may start a word. -/
def startsWord (c : Char) : Bool := c.isAlpha || c = '_'

/-- Whether the character may stand inside a word. -/
def inWord (c : Char) : Bool := c.isAlphanum || c = '_'

/-- Whether the character may stand in the suffix of a literal. -/
def inSuffix (c : Char) : Bool := c = 'u' || c = 'U' || c = 'l' || c = 'L'

/-- The symbol at the start of a text, and how many characters follow its first one. -/
def symbol? : List Char → Option (Symbol × Nat)
  | '<' :: '<' :: _ => some (.operator .shl, 1)
  | '>' :: '>' :: _ => some (.operator .shr, 1)
  | '<' :: '=' :: _ => some (.operator .le, 1)
  | '>' :: '=' :: _ => some (.operator .ge, 1)
  | '=' :: '=' :: _ => some (.operator .eq, 1)
  | '!' :: '=' :: _ => some (.operator .ne, 1)
  | '+' :: _ => some (.operator .add, 0)
  | '-' :: _ => some (.operator .sub, 0)
  | '*' :: _ => some (.operator .mul, 0)
  | '&' :: _ => some (.operator .and, 0)
  | '|' :: _ => some (.operator .or, 0)
  | '^' :: _ => some (.operator .xor, 0)
  | '~' :: _ => some (.complement, 0)
  | '(' :: _ => some (.opening, 0)
  | ')' :: _ => some (.closing, 0)
  | '?' :: _ => some (.question, 0)
  | ':' :: _ => some (.colon, 0)
  | '<' :: _ => some (.operator .lt, 0)
  | '>' :: _ => some (.operator .gt, 0)
  | _ => none

/-- A literal made of the given digits and suffix; it has to be below `2 ^ 127`. -/
def literal (base : Nat) (digits suffix : List Char) : Except Cause Lexeme :=
  match (Text.natOfDigits? base digits).filter (· < 2 ^ (127 : Nat)) with
  | some value =>
    .ok (.integer value (base = 16) (suffix.any fun c => c = 'u' || c = 'U')
      (suffix.any fun c => c = 'l' || c = 'L'))
  | none => .error .malformedLiteral

/-- The literal that starts with digit `c` and goes on in `rest`, and how many characters of `rest`
belong to it. -/
def scanLiteral (c : Char) (rest : List Char) : Except Cause (Lexeme × Nat) :=
  let (base, mark, digits) :=
    match c, rest with
    | '0', 'x' :: cs | '0', 'X' :: cs => (16, 2, cs.takeWhile (Text.isDigitOf 16))
    | _, _ => (10, 0, (c :: rest).takeWhile (Text.isDigitOf 10))
  let suffix := ((c :: rest).drop (mark + digits.length)).takeWhile inSuffix
  (literal base digits suffix).map fun l => (l, mark + digits.length + suffix.length - 1)

/-- The lexeme that starts with `c` and goes on in `rest`, and how many characters of `rest` belong
to it. -/
def scan (c : Char) (rest : List Char) : Except Cause (Lexeme × Nat) :=
  if startsWord c then
    let more := rest.takeWhile inWord
    .ok (.word (String.ofList (c :: more)), more.length)
  else if c.isDigit then scanLiteral c rest
  else
    match symbol? (c :: rest) with
    | some (s, more) => .ok (.symbol s, more)
    | none => .error (.unsupportedCharacter c)

/-- The tokens of a text that starts at `offset`. -/
def lexFrom (offset : Nat) : List Char → Except Fault (List Token)
  | [] => .ok []
  | c :: rest =>
    if isSpace c then lexFrom (offset + 1) rest
    else
      match scan c rest with
      | .error cause => .error ⟨offset, cause⟩
      | .ok (l, more) =>
        (lexFrom (offset + 1 + more) (rest.drop more)).map (⟨l, offset⟩ :: ·)
  termination_by cs => cs.length
  decreasing_by all_goals simp; try omega

/-- The tokens of a text. -/
def lex (text : String) : Except Fault (List Token) := lexFrom 0 text.toList

end CustomIsa.Expr
