import CustomIsa.Definition.Basic
/-! # Bundled extensions

Extensions that come with the library, by the name of their document. -/
namespace CustomIsa.Bundled

/-- A register operand. -/
def register (name : String) (width : Nat) (signed : Bool) (direction : Direction := .input) :
    Operand :=
  { name, kind := .register, width, signed, direction }

/-- A destination and two sources of one type. -/
def registers (width : Nat) (signed : Bool) (destination : Direction := .output) : List Operand :=
  [register "rd" width signed destination, register "rs1" width signed, register "rs2" width signed]

/-- An accumulation with a negated source and an increment. -/
def xexample : Extension where
  label := "xexample"
  title := "XExample"
  instructions := [
    { mnemonic := "subincacc"
      operands := registers 32 true .inout
      layout := .registerForm 43 3 40
      template := some "(add rd rs1 (neg rs2) 1)"
      intrinsic := some "__builtin_riscv_xexample_subincacc" }]

/-- The same accumulation on 64-bit registers. -/
def xexample64 : Extension where
  label := "xexample64"
  title := "XExample (RV64)"
  instructions := [
    { mnemonic := "subincacc"
      variant := .rv64
      operands := registers 64 true .inout
      layout := .registerForm 43 3 40
      template := some "(add rd rs1 (neg rs2) 1)" }]

/-- The register form with a shift amount in its upper bits. -/
def shiftForm (funct2 funct3 : Nat) : Layout where
  fixed := [⟨31, 30, funct2⟩, ⟨14, 12, funct3⟩, ⟨6, 0, 91⟩]
  fields := [⟨"is3", 29, 25, 0⟩, ⟨"rs2", 24, 20, 0⟩, ⟨"rs1", 19, 15, 0⟩, ⟨"rd", 11, 7, 0⟩]

/-- The amount of a shift. -/
def shiftAmount : Operand := { name := "is3", kind := .immediate, width := 5 }

/-- The operands of an accumulation of 16-bit products. -/
def macOperands : List Operand :=
  [register "rd" 32 false .inout, register "rs1" 16 false, register "rs2" 16 false, shiftAmount]

/-- Additions and accumulations with a shift, one of them with a rounding form. -/
def xcorev : Extension where
  label := "cv"
  title := "CORE-V XCVAlu/XCVMac"
  instructions := [
    { mnemonic := "addun"
      operands := registers 32 false ++ [shiftAmount]
      layout := shiftForm 2 2
      template := some "(shr:unsigned (add:native rs1 rs2) is3)" },
    { mnemonic := "avgu"
      operands := registers 32 false ++ [shiftAmount]
      layout := shiftForm 1 2
      template := some "(shr:unsigned (add:nowrap rs1 rs2) is3)" },
    { mnemonic := "macun"
      operands := macOperands
      layout := shiftForm 2 6
      template := some "(shr:unsigned (add:nowrap rd (mul:nowrap rs1 rs2)) is3)" },
    { mnemonic := "macurn"
      operands := macOperands
      layout := shiftForm 3 6
      marker := some (.rounding "macun") }]

/-- Maxima. -/
def xopenasip : Extension where
  label := "xopenasip"
  title := "OpenASIP"
  instructions := [
    { mnemonic := "max"
      operands := registers 32 true
      layout := .registerForm 11 0 21
      template := some "(max:signed rs1 rs2)" },
    { mnemonic := "maxu"
      operands := registers 32 false
      layout := .registerForm 11 1 21
      template := some "(max:unsigned rs1 rs2)" }]

/-- A negated conjunction. -/
def xrv : Extension where
  label := "xrv"
  title := "XRV"
  instructions := [
    { mnemonic := "nand"
      operands := registers 32 true
      layout := .registerForm 43 6 73
      template := some "(not (and rs1 rs2))" }]

/-- A negated conjunction with an immediate, in 16 bits. -/
def xrvc : Extension where
  label := "xrvc"
  title := "XRVC"
  instructions := [
    { mnemonic := "nandi"
      variant := .compressed
      operands := [
        { name := "rd", kind := .register, width := 32, direction := .inout, bias := 8 },
        { name := "imm", kind := .immediate, width := 6 }]
      layout := {
        fixed := [⟨15, 13, 4⟩, ⟨11, 10, 0⟩, ⟨1, 0, 0⟩]
        fields := [⟨"imm", 12, 12, 5⟩, ⟨"rd", 9, 7, 0⟩, ⟨"imm", 6, 2, 0⟩] }
      template := some "(not (and rd imm))" }]

/-- An exclusive or followed by a rotation to the left. -/
def xorRotate (funct3 left : Nat) : Definition where
  mnemonic := s!"xorrol{left}"
  operands := registers 32 false
  layout := .registerForm 11 funct3 0
  template := some
    (s!"(or (shl:native (xor rs1 rs2) {left}) " ++
      s!"(shr:native:unsigned (xor rs1 rs2) {32 - left}))")
  intrinsic := some s!"__builtin_riscv_xchacha_xorrol{left}"

/-- Steps of a stream cipher. -/
def chacha : Extension where
  label := "chacha"
  title := "XChaCha"
  instructions := [xorRotate 0 16, xorRotate 1 12, xorRotate 2 8, xorRotate 3 7]

/-- The bundled extension of the given name. -/
def find? : String → Option Extension
  | "xexample" => some xexample
  | "xexample64" => some xexample64
  | "xcorev" => some xcorev
  | "xopenasip" => some xopenasip
  | "xrv" => some xrv
  | "xrvc" => some xrvc
  | "chacha" => some chacha
  | _ => none

end CustomIsa.Bundled
