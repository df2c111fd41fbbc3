import CustomIsa.Text.Numeral
/-! # Instruction words

An instruction word has 16 or 32 bits. Its two low bits announce which: `0b11` opens a word of 32
bits, anything else one of 16. In a byte stream words are little endian. -/
namespace CustomIsa

/-- The size of an instruction word. -/
inductive WordSize where
  | half
  | full
  deriving Repr, DecidableEq

namespace WordSize

/-- The bits of a word. -/
def bits : WordSize → Nat
  | .half => 16
  | .full => 32

/-- The bytes of a word. -/
def bytes : WordSize → Nat
  | .half => 2
  | .full => 4

/-- The size announced by the low bits of a word or of its first byte. -/
def announcedBy (low : Nat) : WordSize := if low % 4 = 3 then .full else .half

end WordSize

/-- An instruction word; no bit above its size is set. -/
structure Word where
  size : WordSize
  bits : Nat
  fits : bits < 2 ^ size.bits
  deriving Repr, DecidableEq

/-- A byte stream that ends inside an instruction. -/
structure Truncation where
  offset : Nat
  needed : Nat
  available : Nat
  deriving Repr, DecidableEq

namespace Word

/-- The word of the given size that holds the low bits of a pattern. -/
def ofBits (size : WordSize) (pattern : Nat) : Word :=
  ⟨size, pattern % 2 ^ size.bits, Nat.mod_lt _ (Nat.two_pow_pos _)⟩

/-- The bytes of the word, the lowest one first. -/
def toBytes (w : Word) : List UInt8 :=
  (List.range w.size.bytes).map fun i => UInt8.ofNat (w.bits >>> (8 * i))

/-- The number that a little-endian byte list stands for. -/
def ofLittleEndian : List UInt8 → Nat
  | [] => 0
  | b :: bs => b.toNat + 256 * ofLittleEndian bs

/-- Reads the word at the start of `bytes`, which lie at `offset` in their stream. -/
def read (offset : Nat) (bytes : List UInt8) : Except Truncation Word :=
  match bytes with
  | [] => .error ⟨offset, WordSize.half.bytes, 0⟩
  | first :: _ =>
    let size := WordSize.announcedBy first.toNat
    if bytes.length < size.bytes then .error ⟨offset, size.bytes, bytes.length⟩
    else .ok (ofBits size (ofLittleEndian (bytes.take size.bytes)))

/-- The word in hexadecimal, with all its digits. -/
def render (w : Word) : String :=
  match w.size with
  | .half => "0x" ++ Text.hexPadded 4 w.bits
  | .full => "0x" ++ Text.hexPadded 8 w.bits

end Word
end CustomIsa
