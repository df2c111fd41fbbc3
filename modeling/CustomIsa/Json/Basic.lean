import CustomIsa.Text.Numeral
/-! # JSON values

A JSON value as it stands in a document. Numbers keep their spelling, since `1.0` and `1` differ to
a reader of integers. Members keep their order and may repeat a key. The content of a string is
`none` when one of its escapes is half of a surrogate pair: such a string may stand in a document,
but nothing can be read from it.

There are two layouts: `pretty` puts every item and member on a line of its own, two spaces further
in than the bracket that holds it, and `compact` writes the value on one line. Characters below
U+0020 are escaped, as are the quote and the backslash; all others stand for themselves.

A record is written as an object or as an array of its fields in declared order. In an object
unknown keys are passed over and a known one may stand at most once; an array may stop early. A
field that is not written is absent: whether that is an error or means a default is up to the
field. A choice is written as its name, or as an object with the name as its only key. -/
namespace CustomIsa

/-- A JSON value. -/
inductive Json where
  | null
  | bool (b : Bool)
  | number (spelling : String)
  | string (content : Option String)
  | array (items : List Json)
  | object (members : List (Option String × Json))

namespace Json

/-- A string value with the given content. -/
def text (s : String) : Json := .string (some s)

/-- A number value for a natural number. -/
def nat (n : Nat) : Json := .number (toString n)

/-- A list of named values as an object. -/
def record (members : List (String × Json)) : Json :=
  .object (members.map fun (key, value) => (some key, value))

/-- A value that may be absent, `null` in its absence. -/
def optional (value : Option Json) : Json := value.getD .null

/-! ## Layouts -/

/-- A character as it stands inside a string. -/
def escape (c : Char) : List Char :=
  if c = '"' then ['\\', '"']
  else if c = '\\' then ['\\', '\\']
  else if c = '\x08' then ['\\', 'b']
  else if c = '\x0c' then ['\\', 'f']
  else if c = '\n' then ['\\', 'n']
  else if c = '\r' then ['\\', 'r']
  else if c = '\t' then ['\\', 't']
  else if c.toNat < 0x20 then ['\\', 'u'] ++ (Text.hexPadded 4 c.toNat).toList
  else [c]

/-- A string with its quotes; content that cannot be read is written as half a surrogate pair. -/
def quoted : Option String → String
  | some s => "\"" ++ String.ofList (s.toList.flatMap escape) ++ "\""
  | none => "\"\\ud800\""

/-- The blanks at the start of a line that is `depth` levels in. -/
def indent (depth : Nat) : String := String.ofList (List.replicate (2 * depth) ' ')

mutual

/-- The value in the pretty layout, where its closing bracket is `depth` levels in. -/
def prettyAt (depth : Nat) : Json → String
  | .null => "null"
  | .bool b => if b then "true" else "false"
  | .number spelling => spelling
  | .string s => quoted s
  | .array [] => "[]"
  | .array (v :: vs) =>
    "[\n" ++ indent (depth + 1) ++ prettyAt (depth + 1) v ++ prettyItems (depth + 1) vs ++ "\n" ++
      indent depth ++ "]"
  | .object [] => "\x7b\x7d"
  | .object ((key, v) :: ms) =>
    "\x7b\n" ++ indent (depth + 1) ++ quoted key ++ ": " ++ prettyAt (depth + 1) v ++
      prettyMembers (depth + 1) ms ++ "\n" ++ indent depth ++ "\x7d"

/-- The items after the first, each with the comma before it. -/
def prettyItems (depth : Nat) : List Json → String
  | [] => ""
  | v :: vs => ",\n" ++ indent depth ++ prettyAt depth v ++ prettyItems depth vs

/-- The members after the first, each with the comma before it. -/
def prettyMembers (depth : Nat) : List (Option String × Json) → String
  | [] => ""
  | (key, v) :: ms =>
    ",\n" ++ indent depth ++ quoted key ++ ": " ++ prettyAt depth v ++ prettyMembers depth ms

end

@[simp] theorem prettyAt_null (depth : Nat) : prettyAt depth .null = "null" := by rw [prettyAt]

@[simp] theorem prettyItems_nil (depth : Nat) : prettyItems depth [] = "" := by rw [prettyItems]

@[simp] theorem prettyMembers_nil (depth : Nat) : prettyMembers depth [] = "" := by
  rw [prettyMembers]

/-- The value over several lines. -/
def pretty (value : Json) : String := prettyAt 0 value

mutual

/-- The value on one line. -/
def compact : Json → String
  | .null => "null"
  | .bool b => if b then "true" else "false"
  | .number spelling => spelling
  | .string s => quoted s
  | .array [] => "[]"
  | .array (v :: vs) => "[" ++ compact v ++ compactItems vs ++ "]"
  | .object [] => "\x7b\x7d"
  | .object ((key, v) :: ms) =>
    "\x7b" ++ quoted key ++ ":" ++ compact v ++ compactMembers ms ++ "\x7d"

/-- The items after the first, each with the comma before it. -/
def compactItems : List Json → String
  | [] => ""
  | v :: vs => "," ++ compact v ++ compactItems vs

/-- The members after the first, each with the comma before it. -/
def compactMembers : List (Option String × Json) → String
  | [] => ""
  | (key, v) :: ms => "," ++ quoted key ++ ":" ++ compact v ++ compactMembers ms

end

/-! ## Reading data -/

/-- The content of a string. -/
def string? : Json → Option String
  | .string content => content
  | _ => none

/-- A truth value. -/
def bool? : Json → Option Bool
  | .bool b => some b
  | _ => none

/-- A natural number below `bound`, spelled with digits alone. -/
def natBelow? (bound : Nat) : Json → Option Nat
  | .number spelling => (Text.natOfDigits? 10 spelling.toList).filter (· < bound)
  | _ => none

/-- A 32-bit number. -/
def nat32? : Json → Option Nat := natBelow? (2 ^ (32 : Nat))

/-- A list, every item of which can be read. -/
def list? {α : Type} (item : Json → Option α) : Json → Option (List α)
  | .array items => items.mapM item
  | _ => none

/-- The values of a member list under one key. -/
def valuesOf (key : String) (members : List (Option String × Json)) : List Json :=
  (members.filter fun m => m.1 = some key).map Prod.snd

/-- The value of a key that stands at most once; the outer option is the failure. -/
def valueOf? (members : List (Option String × Json)) (key : String) : Option (Option Json) :=
  match valuesOf key members with
  | [] => some none
  | [v] => some (some v)
  | _ => none

/-- What a record gives for each of its fields, in declared order. -/
def fields? (names : List String) : Json → Option (List (Option Json))
  | .object members =>
    if members.all fun m => m.1.isSome then names.mapM (valueOf? members) else none
  | .array items =>
    if items.length ≤ names.length then
      some ((List.range names.length).map fun i => items[i]?)
    else none
  | _ => none

/-- A field that has to be written. -/
def required {α : Type} (read : Json → Option α) (field : Option Json) : Option α :=
  field.bind read

/-- A field with a default. -/
def withDefault {α : Type} (default : α) (read : Json → Option α) : Option Json → Option α
  | none => some default
  | some v => read v

/-- A field that may be absent or `null`. -/
def optional? {α : Type} (read : Json → Option α) : Option Json → Option (Option α)
  | none => some none
  | some .null => some none
  | some v => (read v).map some

/-- The name of a choice that carries no data. -/
def choice? : Json → Option String
  | .string content => content
  | .object [(some name, .null)] => some name
  | _ => none

end Json
end CustomIsa
