/-! # Major opcodes

Bits `[6:2]` of a 32-bit instruction word name its major opcode. Four of them are set aside for
custom instructions and one is reserved; custom instructions may use either. -/
namespace CustomIsa

/-- The major opcode of a 32-bit instruction word. -/
inductive MajorOpcode where
  | load
  | loadFp
  | custom0
  | miscMem
  | opImm
  | auipc
  | opImm32
  | store
  | storeFp
  | custom1
  | amo
  | op
  | lui
  | op32
  | madd
  | msub
  | nmsub
  | nmadd
  | opFp
  | opV
  | custom2
  | branch
  | jalr
  | reserved
  | jal
  | system
  | opVe
  | custom3
  | longer
  deriving Repr, DecidableEq

namespace MajorOpcode

/-- The opcodes by the value of bits `[6:2]`. -/
def table : List MajorOpcode :=
  [.load, .loadFp, .custom0, .miscMem, .opImm, .auipc, .opImm32, .longer,
    .store, .storeFp, .custom1, .amo, .op, .lui, .op32, .longer,
    .madd, .msub, .nmsub, .nmadd, .opFp, .opV, .custom2, .longer,
    .branch, .jalr, .reserved, .jal, .system, .opVe, .custom3, .longer]

/-- The major opcode of a word; a word of 16 bits has none. -/
def ofWord? (bits : Nat) : Option MajorOpcode :=
  if bits % 4 = 3 then table[bits / 4 % 32]? else none

/-- Whether custom instructions may use the opcode. -/
def isCustom : MajorOpcode → Bool
  | .custom0 | .custom1 | .custom2 | .custom3 | .reserved => true
  | _ => false

/-- The name of the opcode. -/
def name : MajorOpcode → String
  | .load => "LOAD"
  | .loadFp => "LOAD-FP"
  | .custom0 => "custom-0"
  | .miscMem => "MISC-MEM"
  | .opImm => "OP-IMM"
  | .auipc => "AUIPC"
  | .opImm32 => "OP-IMM-32"
  | .store => "STORE"
  | .storeFp => "STORE-FP"
  | .custom1 => "custom-1"
  | .amo => "AMO"
  | .op => "OP"
  | .lui => "LUI"
  | .op32 => "OP-32"
  | .madd => "MADD"
  | .msub => "MSUB"
  | .nmsub => "NMSUB"
  | .nmadd => "NMADD"
  | .opFp => "OP-FP"
  | .opV => "OP-V"
  | .custom2 => "custom-2"
  | .branch => "BRANCH"
  | .jalr => "JALR"
  | .reserved => "reserved"
  | .jal => "JAL"
  | .system => "SYSTEM"
  | .opVe => "OP-VE"
  | .custom3 => "custom-3"
  | .longer => ">32b"

end MajorOpcode
end CustomIsa
