import CustomIsa.Definition.Basic
import CustomIsa.Registry.Basic
/-! # Taking in extensions

The first stage of loading: extensions are taken in one after another, and so are their definitions.
A namespace has to be a single word, a definition has to pass its own check, and its qualified name
has to be new. On a 32-bit target, definitions for 64 bits are left out unchecked. -/
namespace CustomIsa.Registry

/-- The definitions taken in so far, their positions by name, and what the report says of them. -/
structure Intake where
  extensions : List String := []
  entries : List Entry := []
  byName : NameMap Nat := {}
  skipped : List String := []
  nonCustom : List String := []

/-- The major opcode of a definition, if it has 32 bits and fixes it. -/
def opcodeOf? (d : Definition) : Option MajorOpcode :=
  if d.variant ≠ .compressed ∧ d.layout.mask &&& 0x7f = 0x7f then
    MajorOpcode.ofWord? d.layout.matchBits
  else none

/-- Takes in a definition; on a 32-bit target one that needs 64 bits is left out. -/
def Intake.add (xlen : Nat) (label : String) (s : Intake) (d : Definition) :
    Except Failure Intake :=
  let name := label ++ "." ++ d.mnemonic
  if d.variant = .rv64 ∧ xlen < 64 then .ok { s with skipped := s.skipped ++ [name] }
  else
    match d.check with
    | .error fault => .error (.malformed name (.definition fault))
    | .ok () =>
      if s.byName.contains name then .error (.malformed name .duplicateMnemonic)
      else
        let opcode := opcodeOf? d
        let entry : Entry :=
          { index := s.entries.length, label, definition := d, «alias» := d.intrinsic, opcode }
        let outside := opcode.any fun major => !major.isCustom
        .ok { s with
          entries := s.entries ++ [entry]
          byName := s.byName.insert name s.entries.length
          nonCustom := s.nonCustom ++ (if outside then [name] else []) }

/-- Takes in definitions one after another. -/
def Intake.addAll (xlen : Nat) (label : String) (s : Intake) :
    List Definition → Except Failure Intake
  | [] => .ok s
  | d :: ds => do
    let s ← s.add xlen label d
    Intake.addAll xlen label s ds

/-- Takes in extensions one after another. -/
def Intake.extend (xlen : Nat) (s : Intake) : List Extension → Except Failure Intake
  | [] => .ok s
  | e :: es =>
    if e.label = "" ∨ Text.hasBlank e.label then .error (.malformed e.label .invalidNamespace)
    else do
      let s ← Intake.addAll xlen e.label { s with extensions := s.extensions ++ [e.label] }
        e.instructions
      Intake.extend xlen s es

end CustomIsa.Registry
