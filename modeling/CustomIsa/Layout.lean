import CustomIsa.Bits
import CustomIsa.Text.Numeral
/-! # Layouts of instruction words

A layout divides the bits of a word into ranges with a fixed value and segments that carry bits of
an operand. An operand may be spread over several segments, each with its place in the value.

`Layout.check` accepts a layout that covers every bit of the word exactly once and whose fixed bits
announce the word's size; it names the first rule that fails. The masks of a layout are defined
without that check, since a definition can be inspected before it is loaded. -/
namespace CustomIsa

/-- The bits `hi` down to `lo` of a word and the value they have to hold, right-aligned. -/
structure FixedRange where
  hi : Nat
  lo : Nat
  value : Nat
  deriving Repr, DecidableEq

/-- The bits `hi` down to `lo` of a word, which carry the bits of `operand` from bit `offset` on. -/
structure Segment where
  operand : String
  hi : Nat
  lo : Nat
  offset : Nat := 0
  deriving Repr, DecidableEq

/-- The division of a word into fixed ranges and operand segments. -/
structure Layout where
  fixed : List FixedRange := []
  fields : List Segment := []
  deriving Repr, DecidableEq, Inhabited

/-- The number of bits in the range, as a 32-bit number. -/
def FixedRange.length (f : FixedRange) : Nat := (f.hi - f.lo + 1) % 2 ^ (32 : Nat)

namespace Segment

/-- The number of bits in the segment, as a 32-bit number. -/
def length (s : Segment) : Nat := (s.hi + 2 ^ (32 : Nat) - s.lo + 1) % 2 ^ (32 : Nat)

/-- The place of the segment's lowest bit in a 64-bit value. -/
def shift (s : Segment) : Nat := s.offset % 64

/-- The bits of the operand's value that the segment carries. -/
def valueMask (s : Segment) : Nat := (Bits.lowMask s.length <<< s.shift) % 2 ^ (64 : Nat)

end Segment

namespace Layout

/-- The register form of the base instruction set: two sources, one destination. -/
def registerForm (opcode funct3 funct7 : Nat) : Layout where
  fixed := [⟨31, 25, funct7⟩, ⟨14, 12, funct3⟩, ⟨6, 0, opcode⟩]
  fields := [⟨"rs2", 24, 20, 0⟩, ⟨"rs1", 19, 15, 0⟩, ⟨"rd", 11, 7, 0⟩]

/-- The fixed bits of the word. -/
def mask (l : Layout) : Nat := l.fixed.foldl (fun acc f => acc ||| Bits.rangeMask f.hi f.lo) 0

/-- The value that the fixed bits have to hold, in place. -/
def matchBits (l : Layout) : Nat :=
  l.fixed.foldl
    (fun acc f => acc ||| ((f.value &&& Bits.lowMask f.length) <<< min f.lo 31) % 2 ^ (32 : Nat)) 0

/-- How many bits of the word are fixed. -/
def fixedCount (l : Layout) : Nat := (List.range 32).countP l.mask.testBit

/-- The segments that carry bits of an operand. -/
def segments (l : Layout) (operand : String) : List Segment :=
  l.fields.filter (·.operand = operand)

/-- How many word bits an operand takes, and which bits of its value they carry. -/
def coverage (l : Layout) (operand : String) : Nat × Nat :=
  (l.segments operand).foldl
    (fun (count, mask) s => ((count + s.length) % 2 ^ (32 : Nat), mask ||| s.valueMask)) (0, 0)

/-- What a range of bits is for. -/
inductive Owner where
  | fixed
  | field (operand : String)
  deriving Repr, DecidableEq

/-- A rule that a layout breaks. -/
inductive Fault where
  | inverted (owner : Owner) (hi lo : Nat)
  | outside (owner : Owner) (hi lo wordBits : Nat)
  | overlap (owner : Owner) (hi lo : Nat)
  | valueTooWide (value hi lo : Nat)
  | uncovered (bits wordBits : Nat)
  | sizeBits32
  | sizeBits16
  deriving Repr, DecidableEq

/-- How a message names the owner of a range. -/
def Owner.text : Owner → String
  | .fixed => "fixed bits"
  | .field operand => s!"field `{operand}`"

/-- The wording of a fault. -/
def Fault.message : Fault → String
  | .inverted owner hi lo => s!"{owner.text} [{hi}:{lo}] has hi < lo"
  | .outside owner hi lo wordBits => s!"{owner.text} [{hi}:{lo}] exceeds the {wordBits}-bit word"
  | .overlap owner hi lo => s!"{owner.text} [{hi}:{lo}] overlaps another range"
  | .valueTooWide value hi lo =>
    "fixed value 0x" ++ Text.hex value ++ s!" does not fit [{hi}:{lo}]"
  | .uncovered bits wordBits =>
    "bits 0x" ++ Text.hex bits ++ s!" of the {wordBits}-bit word are not covered"
  | .sizeBits32 => "32-bit encodings must fix bits [1:0] = 0b11"
  | .sizeBits16 => "16-bit encodings must fix bits [1:0] to a value other than 0b11"

/-- All ranges of the layout, the fixed ones first, each with its owner. -/
def ranges (l : Layout) : List (Owner × Nat × Nat) :=
  l.fixed.map (fun f => (.fixed, f.hi, f.lo)) ++
    l.fields.map (fun s => (.field s.operand, s.hi, s.lo))

/-- Adds a range to the bits that are taken, if it lies in the word and takes no bit twice. -/
def occupy (wordBits taken : Nat) : Owner × Nat × Nat → Except Fault Nat
  | (owner, hi, lo) =>
    if hi < lo then .error (.inverted owner hi lo)
    else if wordBits ≤ hi then .error (.outside owner hi lo wordBits)
    else if taken &&& Bits.rangeMask hi lo ≠ 0 then .error (.overlap owner hi lo)
    else .ok (taken ||| Bits.rangeMask hi lo)

/-- Adds ranges one after another to the bits that are taken. -/
def occupyAll (wordBits taken : Nat) : List (Owner × Nat × Nat) → Except Fault Nat
  | [] => .ok taken
  | r :: rs =>
    match occupy wordBits taken r with
    | .error e => .error e
    | .ok taken => occupyAll wordBits taken rs

/-- The first fixed range whose value has too many bits. -/
def tooWide? (l : Layout) : Option FixedRange :=
  l.fixed.find? fun f => Bits.lowMask (f.hi - f.lo + 1) < f.value

/-- Whether the two low bits are fixed to a value that announces words of this size. -/
def announces (l : Layout) (wordBits : Nat) : Bool :=
  l.mask % 4 = 3 && (if wordBits = 32 then l.matchBits % 4 = 3 else l.matchBits % 4 ≠ 3)

/-- Checks a layout for a word of 16 or 32 bits: ranges in the word and apart, fixed values in their
ranges, every bit taken, and the size announced. -/
def check (l : Layout) (wordBits : Nat) : Except Fault Unit :=
  match occupyAll wordBits 0 l.ranges with
  | .error e => .error e
  | .ok taken =>
    match l.tooWide? with
    | some f => .error (.valueTooWide f.value f.hi f.lo)
    | none =>
      if taken ≠ Bits.lowMask wordBits then
        .error (.uncovered (Bits.lowMask wordBits ^^^ taken) wordBits)
      else if l.announces wordBits then .ok ()
      else .error (if wordBits = 32 then .sizeBits32 else .sizeBits16)

end Layout
end CustomIsa
