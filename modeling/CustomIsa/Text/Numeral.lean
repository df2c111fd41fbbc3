import CustomIsa.Bits
/-! # Number text

Reading and writing of integers in base ten and sixteen. A reader takes the whole text or nothing;
signs are admitted only where a function says so. Written hexadecimal digits are lower case. -/
namespace CustomIsa.Text

/-- The value of a digit in the given base, at most sixteen; letters of both cases count. -/
def digitValue? (base : Nat) (c : Char) : Option Nat :=
  let n := c.toNat
  let value :=
    if 0x30 ≤ n ∧ n ≤ 0x39 then some (n - 0x30)
    else if 0x61 ≤ n ∧ n ≤ 0x66 then some (n - 0x61 + 10)
    else if 0x41 ≤ n ∧ n ≤ 0x46 then some (n - 0x41 + 10)
    else none
  value.filter (· < base)

/-- Whether the character is a digit of the given base. -/
def isDigitOf (base : Nat) (c : Char) : Bool := (digitValue? base c).isSome

/-- The number that a run of digits denotes, read after the digits that make up `acc`. -/
def digitsFrom (base : Nat) (acc : Nat) : List Char → Option Nat
  | [] => some acc
  | c :: cs => (digitValue? base c).bind fun d => digitsFrom base (acc * base + d) cs

/-- The number denoted by one or more digits. -/
def natOfDigits? (base : Nat) (cs : List Char) : Option Nat :=
  if cs = [] then none else digitsFrom base 0 cs

/-- The number denoted by an optional sign and one or more digits. -/
def intOfDigits? (base : Nat) : List Char → Option Int
  | '-' :: cs => (natOfDigits? base cs).map fun n : Nat => -(n : Int)
  | '+' :: cs => (natOfDigits? base cs).map Int.ofNat
  | cs => (natOfDigits? base cs).map Int.ofNat

/-- What stands in a text after a zero and one of the marks. -/
def afterMark? (marks : List Char) : List Char → Option (List Char)
  | '0' :: mark :: rest => if mark ∈ marks then some rest else none
  | _ => none

/-- The 128-bit number that a text without a minus sign before it spells: decimal digits, or a zero,
one of the marks, and hexadecimal digits with an optional sign of their own. -/
def magnitude? (marks cs : List Char) : Option Int :=
  let value :=
    match afterMark? marks cs with
    | some hex => intOfDigits? 16 hex
    | none => (natOfDigits? 10 cs).map Int.ofNat
  value.filter Bits.inInt128

/-- The integer that a text spells: an optional minus sign, then a number. It is worked out in 128
bits and has to lie in the given range. -/
def integer? (marks : List Char) (inRange : Int → Bool) (cs : List Char) : Option Int :=
  let value :=
    match cs with
    | '-' :: digits => (magnitude? marks digits).map fun v => Bits.wrap128 (-v)
    | digits => magnitude? marks digits
  value.filter inRange

/-- A 32-bit count in decimal, with an optional plus sign. -/
def count32? (cs : List Char) : Option Nat :=
  let digits :=
    match cs with
    | '+' :: rest => rest
    | _ => cs
  (natOfDigits? 10 digits).filter (· < 2 ^ (32 : Nat))

/-- Why a text is not a 32-bit hexadecimal number. -/
inductive DigitFault where
  | empty
  | badDigit
  | tooLarge
  deriving Repr, DecidableEq

/-- The wording of a digit fault. -/
def DigitFault.message : DigitFault → String
  | .empty => "cannot parse integer from empty string"
  | .badDigit => "invalid digit found in string"
  | .tooLarge => "number too large to fit in target type"

/-- Reads hexadecimal digits one by one; the first one that is no digit, or that makes the number
leave 32 bits, ends the reading. -/
def hex32From (acc : Nat) : List Char → Except DigitFault Nat
  | [] => .ok acc
  | c :: cs =>
    match digitValue? 16 c with
    | none => .error .badDigit
    | some d =>
      if acc * 16 + d < 2 ^ (32 : Nat) then hex32From (acc * 16 + d) cs else .error .tooLarge

/-- A 32-bit number in hexadecimal, with an optional plus sign. -/
def hex32 : List Char → Except DigitFault Nat
  | [] => .error .empty
  | ['+'] => .error .badDigit
  | '+' :: cs => hex32From 0 cs
  | cs => hex32From 0 cs

/-- The hexadecimal digits of a number, without leading zeros. -/
def hex (n : Nat) : String := String.ofList (Nat.toDigits 16 n)

/-- The hexadecimal digits of a number, filled up with zeros to `width` digits. -/
def hexPadded (width n : Nat) : String :=
  let digits := Nat.toDigits 16 n
  String.ofList (List.replicate (width - digits.length) '0' ++ digits)

/-- A byte as two hexadecimal digits. -/
def hexByte (b : UInt8) : String := hexPadded 2 b.toNat

end CustomIsa.Text
