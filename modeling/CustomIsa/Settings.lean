import CustomIsa.Json.Basic
import CustomIsa.Json.Reader
/-! # Settings

The settings of a run, in three groups: how a registry is loaded, how templates are matched, and
how instructions are listed. A settings document may leave out any group and any field. -/
namespace CustomIsa

/-- How a registry is loaded: the register width of the target, whether definitions without an
intrinsic alias get one, and what generated aliases start with. -/
structure RegistrySettings where
  xlen : Nat := 32
  autoIntrinsics : Bool := true
  aliasPrefix : String := "__builtin_riscv_"
  deriving Repr, DecidableEq

/-- How templates are matched: whether rounding constants are looked for, and the most terms that a
sum may have to be matched. -/
structure MatchSettings where
  roundingDetection : Bool := true
  maxSumTerms : Nat := 8
  deriving Repr, DecidableEq

/-- How instructions are listed: registers by their ABI names, immediates in hexadecimal. -/
structure ListingSettings where
  abiNames : Bool := false
  hexImmediates : Bool := false
  deriving Repr, DecidableEq

/-- All settings of a run. -/
structure Settings where
  registry : RegistrySettings := {}
  matching : MatchSettings := {}
  listing : ListingSettings := {}
  deriving Repr, DecidableEq

/-- The default loading for a 64-bit target. -/
def RegistrySettings.rv64 : RegistrySettings := { xlen := 64 }

namespace Settings
open Json

/-- Reads the group of loading settings. -/
def registry? (j : Json) : Option RegistrySettings := do
  let [xlen, auto, stem] ← fields? ["xlen", "auto_intrinsics", "intrinsic_prefix"] j | none
  let base : RegistrySettings := {}
  pure {
    xlen := ← withDefault base.xlen nat32? xlen
    autoIntrinsics := ← withDefault base.autoIntrinsics bool? auto
    aliasPrefix := ← withDefault base.aliasPrefix string? stem }

/-- Reads the group of matching settings; a count may have 64 bits. -/
def matching? (j : Json) : Option MatchSettings := do
  let [rounding, terms] ← fields? ["rounding_detection", "max_sum_terms"] j | none
  let base : MatchSettings := {}
  pure {
    roundingDetection := ← withDefault base.roundingDetection bool? rounding
    maxSumTerms := ← withDefault base.maxSumTerms (natBelow? (2 ^ (64 : Nat))) terms }

/-- Reads the group of listing settings. -/
def listing? (j : Json) : Option ListingSettings := do
  let [abi, hex] ← fields? ["abi_names", "hex_immediates"] j | none
  let base : ListingSettings := {}
  pure {
    abiNames := ← withDefault base.abiNames bool? abi
    hexImmediates := ← withDefault base.hexImmediates bool? hex }

/-- Reads all settings from a JSON value. -/
def ofJson? (j : Json) : Option Settings := do
  let [registry, matching, listing] ← fields? ["registry", "matcher", "disasm"] j | none
  pure {
    registry := ← withDefault {} registry? registry
    matching := ← withDefault {} matching? matching
    listing := ← withDefault {} listing? listing }

/-- Reads all settings from the text of a document. -/
def ofText? (text : String) : Option Settings := (Json.read? text).bind ofJson?

end Settings
end CustomIsa
