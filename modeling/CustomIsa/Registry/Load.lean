import CustomIsa.Registry.Intake
import CustomIsa.Settings
/-! # Loading extensions

`Registry.load` checks a list of extensions and makes a registry of them. It names the first rule
that fails, in this order:

* the register width of the target,
* for each extension its namespace, and for each of its definitions the definition itself
  (`Definition.check`) and its name,
* aliases that are declared twice,
* pairs of definitions that would decode the same word with equally many free bits,
* templates, which have to be rooted at an operator,
* rounding forms.

Definitions without an alias get one if they write one register and read something, unless another
definition has that alias already. Each pass fills the index of what it checks: names, aliases,
shapes, rounding forms. -/
namespace CustomIsa.Registry

/-- Enters the declared aliases one after another, until one is there already. -/
def declareAliases (aliases : NameMap Nat) : List Entry → Except Failure (NameMap Nat)
  | [] => .ok aliases
  | e :: es =>
    match e.alias with
    | none => declareAliases aliases es
    | some name =>
      if aliases.contains name then .error (.malformed e.name (.duplicateAlias name))
      else declareAliases (aliases.insert name e.index) es

/-- The alias that is generated for a definition. -/
def generatedAlias (stem : String) (e : Entry) : String :=
  stem ++ e.label ++ "_" ++
    String.ofList (e.definition.mnemonic.toList.map fun c => if c = '.' then '_' else c)

/-- Whether a definition without an alias may be called as an intrinsic. -/
def wantsAlias (e : Entry) : Bool :=
  e.alias.isNone && e.definition.registerOutput?.isSome && !e.definition.inputs.isEmpty

/-- Definitions with their aliases, their positions by alias, and how many aliases were
generated. -/
structure Aliased where
  entries : List Entry
  byAlias : NameMap Nat
  generated : Nat

/-- Generates aliases where they are wanted and not taken, one after another. -/
def generateAliases (stem : String) (aliases : NameMap Nat) : List Entry → Aliased
  | [] => ⟨[], aliases, 0⟩
  | e :: es =>
    let name := generatedAlias stem e
    if wantsAlias e ∧ aliases.contains name = false then
      let rest := generateAliases stem (aliases.insert name e.index) es
      ⟨{ e with «alias» := some name } :: rest.entries, rest.byAlias, rest.generated + 1⟩
    else
      let rest := generateAliases stem aliases es
      { rest with entries := e :: rest.entries }

/-- Enters the declared aliases, and after all of them those that are generated. -/
def assignAliases (settings : RegistrySettings) (entries : List Entry) : Except Failure Aliased :=
  (declareAliases {} entries).map fun aliases =>
    if settings.autoIntrinsics then generateAliases settings.aliasPrefix aliases entries
    else ⟨entries, aliases, 0⟩

/-- Whether some word matches both definitions, with equally many free bits. -/
def clash (a b : Definition) : Bool :=
  a.wordSize = b.wordSize && a.freeBits = b.freeBits &&
    (a.layout.matchBits ^^^ b.layout.matchBits) &&& (a.layout.mask &&& b.layout.mask) = 0

/-- The first pair of definitions that clash. -/
def clash? : List Entry → Option (Entry × Entry)
  | [] => none
  | a :: es =>
    match es.find? fun b => clash a.definition b.definition with
    | some b => some (a, b)
    | none => clash? es

/-- The shapes of the templates compiled so far, and how many there are. -/
structure Templates where
  table : ShapeTable := {}
  count : Nat := 0

/-- Compiles the template of a definition, and enters the definition under its shape. -/
def compileEntry (s : Templates) (e : Entry) : Except Failure (Entry × Templates) :=
  match e.definition.template with
  | none => .ok (e, s)
  | some text =>
    match Template.ofText e.definition text with
    | .error fault => .error (.malformed e.name (.template fault))
    | .ok t =>
      match t.rootShape?.filter fun key => key.rule?.isSome with
      | none => .error (.malformed e.name .unmatchableRoot)
      | some key => .ok ({ e with template := some t }, ⟨s.table.insert key e.index, s.count + 1⟩)

/-- Compiles templates one after another. -/
def compileEntries (s : Templates) : List Entry → Except Failure (List Entry × Templates)
  | [] => .ok ([], s)
  | e :: es => do
    let (e, s) ← compileEntry s e
    let (es, s) ← compileEntries s es
    pure (e :: es, s)

/-- Links a rounding form with the definition named `base`. -/
def link (entries : List Entry) (byName : NameMap Nat) (links : List (Nat × Nat)) (e : Entry)
    (base : String) : Except Fault (List (Nat × Nat)) :=
  if e.definition.template.isSome then .error .roundingTemplate
  else
    match (byName.get? base).bind (entries[·]?) with
    | none => .error (.noRoundingBase base)
    | some b =>
      if b.template.isNone then .error (.baseWithoutTemplate base)
      else if b.definition.operands ≠ e.definition.operands then .error (.operandsDiffer base)
      else if (links.lookup b.index).isSome then .error (.secondVariant base)
      else .ok (Sorting.insert (fun x y => x.1 ≤ y.1) (b.index, e.index) links)

/-- Links rounding forms one after another. -/
def linkAll (entries : List Entry) (byName : NameMap Nat) (links : List (Nat × Nat)) :
    List Entry → Except Failure (List (Nat × Nat))
  | [] => .ok links
  | e :: es =>
    match e.roundingBase? with
    | none => linkAll entries byName links es
    | some base =>
      match link entries byName links e base with
      | .error fault => .error (.malformed e.name fault)
      | .ok links => linkAll entries byName links es

/-- Whether the definition of a row comes before that of another in decode order. -/
def rowBefore (entries : List Entry) (a b : DecodeRow) : Bool :=
  match entries[a.position]?, entries[b.position]? with
  | some x, some y => x.decodesBefore y
  | _, _ => false

/-- The rows of all definitions, in decode order. -/
def decodeRowsOf (entries : List Entry) : List DecodeRow :=
  Sorting.sort (rowBefore entries) (entries.map Entry.decodeRow)

/-- Checks what concerns definitions together, and makes a registry of them. -/
def complete (settings : RegistrySettings) (intake : Intake) : Except Failure Registry := do
  let aliased ← assignAliases settings intake.entries
  match clash? aliased.entries with
  | some (a, b) => .error (.malformed b.name (.ambiguousDecode a.name))
  | none =>
    let (entries, templates) ← compileEntries {} aliased.entries
    let rounding ← linkAll entries intake.byName [] entries
    pure {
      xlen := settings.xlen
      entries
      byName := intake.byName
      byAlias := aliased.byAlias
      decodeRows := decodeRowsOf entries
      table := templates.table
      rounding
      report := {
        extensions := intake.extensions
        instructions := intake.entries.length
        skipped := intake.skipped
        templates := templates.count
        autoIntrinsics := aliased.generated
        nonCustom := intake.nonCustom } }

/-- Checks extensions and makes a registry of them. -/
def load (settings : RegistrySettings) (extensions : List Extension) : Except Failure Registry :=
  if settings.xlen ≠ 32 ∧ settings.xlen ≠ 64 then
    .error (.malformed "<registry>" (.unsupportedXlen settings.xlen))
  else do
    let intake ← Intake.extend settings.xlen {} extensions
    complete settings intake

end CustomIsa.Registry
