import CustomIsa.Codec
import CustomIsa.MajorOpcode
import CustomIsa.Ordered
/-! # Registries

A registry holds the definitions of all loaded extensions, in load order, each with its compiled
template and its intrinsic alias. Next to them it has indexes, which give the positions of
definitions: by name, by alias, by the shape of the template, and by the definition that is rounded.
A word is decoded as the first definition that matches it in *decode order*, which is kept as a list
of rows: fewest free bits first, and in load order among equals. -/
namespace CustomIsa

/-- A loaded definition. -/
structure Entry where
  index : Nat
  label : String
  definition : Definition
  template : Option Template := none
  «alias» : Option String := none
  opcode : Option MajorOpcode := none

namespace Entry

/-- The qualified name of a definition: its namespace, a dot, and its mnemonic. -/
def name (e : Entry) : String := e.label ++ "." ++ e.definition.mnemonic

/-- The prototype of the intrinsic. -/
def signature? (e : Entry) : Option Signature := e.alias.map e.definition.signature

/-- The qualified name of the definition of which this is the rounding form. -/
def roundingBase? (e : Entry) : Option String :=
  e.definition.rounds?.map fun base => e.label ++ "." ++ base

/-- Whether a definition comes before another in decode order. -/
def decodesBefore (a b : Entry) : Bool :=
  let fa := a.definition.freeBits
  let fb := b.definition.freeBits
  let ca := a.definition.layout.fixedCount
  let cb := b.definition.layout.fixedCount
  fa < fb || (fa = fb && (cb < ca || (ca = cb && a.index ≤ b.index)))

end Entry

/-- A row of the decode order: the position of a definition, and the words that match it. -/
structure DecodeRow where
  position : Nat
  mask : Nat
  bits : Nat
  size : WordSize
  deriving Repr, DecidableEq

/-- The row of a definition. -/
def Entry.decodeRow (e : Entry) : DecodeRow where
  position := e.index
  mask := e.definition.layout.mask
  bits := e.definition.layout.matchBits
  size := e.definition.wordSize

/-- Whether a word matches a row. -/
def DecodeRow.matchesWord (row : DecodeRow) (w : Word) : Bool :=
  row.size = w.size && w.bits &&& row.mask = row.bits

/-- What was loaded: the namespaces, the number of definitions, those left out because they need a
64-bit target, the numbers of templates and of generated aliases, and the definitions outside the
custom opcodes. -/
structure LoadReport where
  extensions : List String := []
  instructions : Nat := 0
  skipped : List String := []
  templates : Nat := 0
  autoIntrinsics : Nat := 0
  nonCustom : List String := []
  deriving Repr, DecidableEq

/-- The report on one line. -/
def LoadReport.render (r : LoadReport) : String :=
  s!"{r.instructions} instructions from {r.extensions.length} extension(s) [" ++
    ", ".intercalate r.extensions ++
    s!"]; {r.templates} templates, {r.autoIntrinsics} auto intrinsics, {r.skipped.length} skipped"

/-- The loaded definitions of a target and their indexes. The rounding forms are listed by the
positions of their bases, in increasing order of these. -/
structure Registry where
  xlen : Nat
  entries : List Entry
  byName : NameMap Nat
  byAlias : NameMap Nat
  decodeRows : List DecodeRow
  table : ShapeTable
  rounding : List (Nat × Nat)
  report : LoadReport

/-- A decoded instruction. -/
structure Decoded where
  entry : Entry
  bindings : Bindings

namespace Registry

/-- The definition at a position. -/
def entryAt? (r : Registry) (position : Nat) : Option Entry := r.entries[position]?

/-- The definition of the given qualified name. -/
def find? (r : Registry) (name : String) : Option Entry := (r.byName.get? name).bind r.entryAt?

/-- The definition with the given intrinsic alias. -/
def byAlias? (r : Registry) (name : String) : Option Entry := (r.byAlias.get? name).bind r.entryAt?

/-- The rounding form of a definition, which is known by its name. -/
def roundingVariant? (r : Registry) (base : Entry) : Option Entry :=
  (r.byName.get? base.name).bind fun position => (r.rounding.lookup position).bind r.entryAt?

/-- The definitions that have a rounding form, each with that form. -/
def roundingPairs (r : Registry) : List (Entry × Entry) :=
  r.rounding.filterMap fun (base, variant) =>
    (r.entryAt? base).bind fun b => (r.entryAt? variant).map (b, ·)

/-- The definitions of a shape, in load order. -/
def shaped (r : Registry) (key : ShapeKey) : List Entry :=
  (r.table.candidates key).filterMap r.entryAt?

/-- The definitions in decode order. -/
def decodeOrder (r : Registry) : List Entry :=
  r.decodeRows.filterMap fun row => r.entryAt? row.position

/-- The definition as which a word is decoded. -/
def lookup? (r : Registry) (w : Word) : Option Entry :=
  (r.decodeRows.find? (·.matchesWord w)).bind fun row => r.entryAt? row.position

/-- Decodes a word. -/
def decode (r : Registry) (w : Word) : Except Failure Decoded :=
  match r.lookup? w with
  | none => .error (.noMatch w)
  | some e => .ok ⟨e, Codec.extract e.definition w.bits⟩

/-- Decodes the instruction at the start of a byte list; gives its length too. -/
def decodeBytes (r : Registry) (bytes : List UInt8) : Except Failure (Decoded × Nat) :=
  match Word.read 0 bytes with
  | .error t => .error (.truncated t)
  | .ok w => (r.decode w).map (·, w.size.bytes)

/-- Packs operand values into a word that decodes as the same definition. -/
def encode (r : Registry) (e : Entry) (bindings : Bindings) : Except Failure Word :=
  match Codec.encode e.definition bindings with
  | .error failure => .error failure
  | .ok w =>
    match r.lookup? w with
    | some winner =>
      if winner.index = e.index then .ok w else .error (.shadowed e.name winner.name w)
    | none => .ok w

end Registry
end CustomIsa
