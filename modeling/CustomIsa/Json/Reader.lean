import CustomIsa.Json.Basic
import CustomIsa.Text.Numeral
/-! # Reading JSON

A strict reader: no comments, no trailing commas, no leading zeros, no raw control characters in
strings, nothing after the value but blanks. Nesting may be as deep as the text is long. Every
reader takes the text that is left and returns what it read with the text after it. -/
namespace CustomIsa.Json

/-- The four blanks of a JSON text. -/
def isGap (c : Char) : Bool := c == ' ' || c == '\n' || c == '\t' || c == '\r'

/-- The text after its leading blanks. -/
def skipGap (cs : List Char) : List Char := cs.dropWhile isGap

/-- One or more decimal digits and the text after them. -/
def digits1 (cs : List Char) : Option (List Char × List Char) :=
  match cs.span (Text.isDigitOf 10) with
  | ([], _) => none
  | r => some r

/-- The whole part of a number: zero alone, or digits of which the first is not zero. -/
def wholePart : List Char → Option (List Char × List Char)
  | '0' :: cs => some (['0'], cs)
  | cs => digits1 cs

/-- The part of a number after its point, if there is a point. -/
def fractionPart : List Char → Option (List Char × List Char)
  | '.' :: cs => (digits1 cs).map fun (ds, rest) => ('.' :: ds, rest)
  | cs => some ([], cs)

/-- The exponent of a number, if there is one. -/
def exponentPart : List Char → Option (List Char × List Char)
  | c :: cs =>
    if c = 'e' ∨ c = 'E' then
      match cs with
      | s :: cs' =>
        if s = '+' ∨ s = '-' then (digits1 cs').map fun (ds, rest) => (c :: s :: ds, rest)
        else (digits1 cs).map fun (ds, rest) => (c :: ds, rest)
      | [] => none
    else some ([], c :: cs)
  | [] => some ([], [])

/-- A number, by its spelling. -/
def readNumber (cs : List Char) : Option (List Char × List Char) := do
  let (sign, cs) :=
    match cs with
    | '-' :: rest => (['-'], rest)
    | _ => ([], cs)
  let (whole, cs) ← wholePart cs
  let (fraction, cs) ← fractionPart cs
  let (exponent, cs) ← exponentPart cs
  pure (sign ++ whole ++ fraction ++ exponent, cs)

/-- The number that four hexadecimal digits denote. -/
def hex4 (a b c d : Char) : Option Nat := Text.natOfDigits? 16 [a, b, c, d]

/-- The character of a short escape. -/
def shortEscape? : Char → Option Char
  | '"' => some '"'
  | '\\' => some '\\'
  | '/' => some '/'
  | 'b' => some '\x08'
  | 'f' => some '\x0c'
  | 'n' => some '\n'
  | 'r' => some '\r'
  | 't' => some '\t'
  | _ => none

/-- One character of a string as it is written: plain or by a short escape, or as the number of a
UTF-16 code unit. -/
inductive Piece where
  | char (c : Char)
  | unit (code : Nat)

/-- The pieces of a string and the text after its closing quote. -/
def readPieces : List Char → Option (List Piece × List Char)
  | [] => none
  | '"' :: cs => some ([], cs)
  | '\\' :: 'u' :: a :: b :: c :: d :: cs => do
    let code ← hex4 a b c d
    (readPieces cs).map fun (ps, rest) => (.unit code :: ps, rest)
  | '\\' :: e :: cs => do
    let c ← shortEscape? e
    (readPieces cs).map fun (ps, rest) => (.char c :: ps, rest)
  | c :: cs =>
    if c.toNat < 0x20 ∨ c = '\\' then none
    else (readPieces cs).map fun (ps, rest) => (.char c :: ps, rest)

/-- The first half of a surrogate pair. -/
def isHighHalf (code : Nat) : Bool := 0xD800 ≤ code && code < 0xDC00

/-- The second half of a surrogate pair. -/
def isLowHalf (code : Nat) : Bool := 0xDC00 ≤ code && code < 0xE000

/-- The character that a surrogate pair encodes. -/
def pairedChar (high low : Nat) : Char :=
  Char.ofNat (0x10000 + (high - 0xD800) * 0x400 + (low - 0xDC00))

/-- The content that pieces spell; none if half of a surrogate pair stands alone. -/
def contentOf : List Piece → Option (List Char)
  | [] => some []
  | .char c :: ps => (contentOf ps).map (c :: ·)
  | [.unit code] => if isHighHalf code || isLowHalf code then none else some [Char.ofNat code]
  | .unit code :: .char c :: ps =>
    if isHighHalf code || isLowHalf code then none
    else (contentOf ps).map fun cs => Char.ofNat code :: c :: cs
  | .unit code :: .unit next :: ps =>
    if isHighHalf code then
      if isLowHalf next then (contentOf ps).map (pairedChar code next :: ·) else none
    else if isLowHalf code then none
    else (contentOf (.unit next :: ps)).map (Char.ofNat code :: ·)

/-- The content of a string and the text after its closing quote. -/
def readString (cs : List Char) : Option (Option String × List Char) :=
  (readPieces cs).map fun (ps, rest) => ((contentOf ps).map String.ofList, rest)

mutual

/-- Reads one value; `fuel` bounds the nesting and the length of lists. -/
def readValue : Nat → List Char → Option (Json × List Char)
  | 0, _ => none
  | fuel + 1, cs =>
    match skipGap cs with
    | 'n' :: 'u' :: 'l' :: 'l' :: cs => some (.null, cs)
    | 't' :: 'r' :: 'u' :: 'e' :: cs => some (.bool true, cs)
    | 'f' :: 'a' :: 'l' :: 's' :: 'e' :: cs => some (.bool false, cs)
    | '"' :: cs => (readString cs).map fun (s, rest) => (.string s, rest)
    | '[' :: cs =>
      match skipGap cs with
      | ']' :: rest => some (.array [], rest)
      | _ => (readItems fuel cs).map fun (vs, rest) => (.array vs, rest)
    | '\x7b' :: cs =>
      match skipGap cs with
      | '\x7d' :: rest => some (.object [], rest)
      | _ => (readMembers fuel cs).map fun (ms, rest) => (.object ms, rest)
    | cs => (readNumber cs).map fun (n, rest) => (.number (String.ofList n), rest)

/-- Reads the items of an array up to its closing bracket. -/
def readItems : Nat → List Char → Option (List Json × List Char)
  | 0, _ => none
  | fuel + 1, cs => do
    let (v, cs) ← readValue fuel cs
    match skipGap cs with
    | ']' :: rest => pure ([v], rest)
    | ',' :: cs =>
      let (vs, rest) ← readItems fuel cs
      pure (v :: vs, rest)
    | _ => none

/-- Reads the members of an object up to its closing brace. -/
def readMembers : Nat → List Char → Option (List (Option String × Json) × List Char)
  | 0, _ => none
  | fuel + 1, cs =>
    match skipGap cs with
    | '"' :: cs => do
      let (key, cs) ← readString cs
      match skipGap cs with
      | ':' :: cs =>
        let (v, cs) ← readValue fuel cs
        match skipGap cs with
        | '\x7d' :: rest => pure ([(key, v)], rest)
        | ',' :: cs =>
          let (ms, rest) ← readMembers fuel cs
          pure ((key, v) :: ms, rest)
        | _ => none
      | _ => none
    | _ => none

end

@[simp] theorem readValue_zero (cs : List Char) : readValue 0 cs = none := by rw [readValue]

@[simp] theorem readItems_zero (cs : List Char) : readItems 0 cs = none := by rw [readItems]

@[simp] theorem readMembers_zero (cs : List Char) : readMembers 0 cs = none := by rw [readMembers]

/-- The value that a whole text denotes. Two units of fuel for each character are enough, since
every value and every list of values takes a character of its own. -/
def read? (text : String) : Option Json :=
  let cs := text.toList
  match readValue (2 * cs.length + 2) cs with
  | some (value, rest) => if (skipGap rest).isEmpty then some value else none
  | none => none

end CustomIsa.Json
