import CustomIsa.Assembly.Line
import CustomIsa.Assembly.Listing
import CustomIsa.Command.Arguments
import CustomIsa.Extension.Reader
import CustomIsa.Json.Basic
import CustomIsa.Match.Select
import CustomIsa.Registry.Basic
import CustomIsa.Registry.Load
/-! # Running a command

A run reads the settings, loads the documents into a registry, and does its task. A failure of one
line, input or expression is reported and the run goes on; a registry that cannot be loaded ends it.
Files come in as a function from names to contents, so a run is a function of its arguments. What it
says are the lines that it prints, those it complains with, and its exit status.

* The report of a registry has a line of totals, a line for each definition that was left out or
  lies outside the custom opcodes, and a line for each definition. As JSON it has the same content,
  with the keys of every object in order.
* Lines are assembled one by one. The inputs of a disassembly form one byte stream: a word after
  `0x`, sized by its low bits, stands for its bytes, and other inputs are pairs of hexadecimal
  digits.
* Each expression is printed with its best match, or with all matches that tile it. A match is shown
  with what its operands are bound to, and with a word that encodes it when the values are in
  argument registers. -/
namespace CustomIsa.Command

/-! ## What a run says -/

/-- What a run prints, line by line, and its exit status. -/
structure Outcome where
  exit : Nat := 0
  out : List String := []
  err : List String := []
  deriving Repr, DecidableEq

namespace Outcome

/-- One outcome after another. -/
def append (a b : Outcome) : Outcome :=
  ⟨if a.exit = 0 then b.exit else a.exit, a.out ++ b.out, a.err ++ b.err⟩

/-- All outcomes of a list, in order. -/
def concat (outcomes : List Outcome) : Outcome := outcomes.foldr append {}

/-- A line of output. -/
def print (line : String) : Outcome := { out := [line] }

/-- A line of complaint. -/
def complain (line : String) : Outcome := { err := [line] }

end Outcome

/-! ## Reporting a registry -/

/-- A definition in the JSON report. -/
def entryToJson (e : Entry) : Json :=
  .record [
    ("intrinsic", .optional (e.signature?.map fun s => .text s.render)),
    ("mask", .text ("0x" ++ Text.hexPadded 8 e.definition.layout.mask)),
    ("match", .text ("0x" ++ Text.hexPadded 8 e.definition.layout.matchBits)),
    ("name", .text e.name),
    ("opcode", .optional (e.opcode.map fun o => .text o.name)),
    ("template", .optional (e.definition.template.map .text))]

/-- The JSON report of a registry. -/
def registryToJson (r : Registry) : Json :=
  .record [
    ("auto_intrinsics", .nat r.report.autoIntrinsics),
    ("definitions", .array (r.entries.map entryToJson)),
    ("extensions", .array (r.report.extensions.map .text)),
    ("instructions", .nat r.report.instructions),
    ("non_custom", .array (r.report.nonCustom.map .text)),
    ("skipped", .array (r.report.skipped.map .text)),
    ("templates", .nat r.report.templates)]

/-- A definition in the plain report. -/
def entryLine (e : Entry) : String :=
  "  " ++ Text.padRight 24 e.name ++
    " mask 0x" ++ Text.hexPadded 8 e.definition.layout.mask ++
    " match 0x" ++ Text.hexPadded 8 e.definition.layout.matchBits ++
    " " ++ Text.padRight 8 (e.opcode.elim "-" MajorOpcode.name) ++
    " " ++ e.signature?.elim "" Signature.render

/-- Reports what a registry holds. -/
def runCheck (r : Registry) (json : Bool) : Outcome :=
  if json then .print (registryToJson r).pretty
  else
    { out :=
        [r.report.render] ++
        r.report.skipped.map (fun name => s!"  skipped {name} (RV64 only)") ++
        r.report.nonCustom.map
          (fun name => s!"  warning: {name} is outside the custom opcode space") ++
        r.entries.map entryLine }

/-! ## Selecting instructions for expressions -/

/-- What an operand is bound to, as text. -/
def bindingText (t : ExprTree) (c : Candidate) (op : Operand) : String :=
  op.name ++ "=" ++
    match c.binding? op.name with
    | some (.value node) => (t.node? node).elim "" Expr.render
    | some (.imm value) => toString value
    | none => "<out>"

/-- A word that encodes a candidate, with values in argument registers. -/
def sampleLine (r : Registry) (c : Candidate) : String :=
  match r.emit c.instruction .sample with
  | .ok w =>
    let text := match r.disassemble {} w with
      | .ok text => text
      | .error _ => ""
    s!"    {w.render}  {text}"
  | .error failure => s!"    not encodable: {failure.message}"

/-- A candidate as text. -/
def candidateLines (r : Registry) (t : ExprTree) (c : Candidate) : List String :=
  let operands := c.instruction.entry.definition.operands.map (bindingText t c)
  let root := (t.node? c.root).elim "" Expr.render
  [s!"  {c.name} at {root}: " ++ " ".intercalate operands, sampleLine r c]

/-- The matches that tile a tree, as text. -/
def coverLines (m : Matcher) (t : ExprTree) : List String :=
  let cover := m.cover t
  (if cover.found.isEmpty then ["  no match"] else []) ++
    cover.found.flatMap (candidateLines m.registry t) ++
    cover.ambiguous.map fun a => "  " ++ a.toFailure.message

/-- The best match of a tree, as text. -/
def selectLines (m : Matcher) (t : ExprTree) : List String :=
  match m.select t with
  | .ok (some c) => candidateLines m.registry t c
  | .ok none => ["  no match"]
  | .error failure => ["  " ++ failure.message]

/-- Selects instructions for an expression. -/
def runExpr (m : Matcher) (vars : Typing) (cover : Bool) (text : String) : Outcome :=
  match ExprTree.ofText vars text with
  | .error fault => .complain s!"[!] {text}: {(Failure.expression fault).message}"
  | .ok t => { out := text :: (if cover then coverLines m t else selectLines m t) }

/-! ## Assembling and disassembling -/

/-- Assembles a line. -/
def runAsmLine (r : Registry) (line : String) : Outcome :=
  match r.assemble line with
  | .ok w =>
    .print (w.render ++ "  " ++ Text.padRight 11 (Assembly.byteText w.toBytes) ++ "  " ++
      Text.trim line)
  | .error failure => .complain s!"[!] {Text.trim line}: {failure.message}"

/-- Why an input is not a word or a byte string. -/
inductive InputFault where
  | digits (fault : Text.DigitFault)
  | wideHalf
  | notHex
  | oddDigits
  deriving Repr, DecidableEq

/-- The wording of an input fault. -/
def InputFault.message : InputFault → String
  | .digits fault => fault.message
  | .wideHalf => "16-bit prefix on a value wider than 16 bits"
  | .notHex => "not a hex string"
  | .oddDigits => "odd number of hex digits"

/-- The bytes of a word written after `0x`, where underscores do not count. -/
def wordBytes (digits : List Char) : Except InputFault (List UInt8) :=
  match Text.hex32 (digits.filter (· ≠ '_')) with
  | .error fault => .error (.digits fault)
  | .ok bits =>
    let size := WordSize.announcedBy bits
    if size = .half ∧ 0xFFFF < bits then .error .wideHalf
    else .ok (Word.ofBits size bits).toBytes

/-- The bytes of pairs of digits; a digit is left over if their number is odd. -/
def pairBytes : List Char → Except InputFault (List UInt8)
  | [] => .ok []
  | [_] => .error .oddDigits
  | hi :: lo :: rest =>
    (pairBytes rest).map fun bytes =>
      UInt8.ofNat ((Text.natOfDigits? 16 [hi, lo]).getD 0) :: bytes

/-- The bytes of an input: a word after `0x`, or pairs of digits with blanks anywhere. -/
def inputBytes (input : String) : Except InputFault (List UInt8) :=
  match Text.trimChars input.toList with
  | '0' :: 'x' :: digits | '0' :: 'X' :: digits => wordBytes digits
  | text =>
    let digits := text.filter fun c => !Text.isBlank c
    if digits.all (Text.isDigitOf 16) then pairBytes digits else .error .notHex

/-- The bytes of all inputs, and the complaints about those that have none. -/
def gatherInputs : List String → List UInt8 × List String
  | [] => ([], [])
  | input :: inputs =>
    let (bytes, complaints) := gatherInputs inputs
    match inputBytes input with
    | .ok more => (more ++ bytes, complaints)
    | .error fault => (bytes, s!"[!] {input}: {fault.message}" :: complaints)

/-- Lists the byte stream that the inputs form. -/
def runDisasm (r : Registry) (settings : ListingSettings) (inputs : List String) : Outcome :=
  let (bytes, complaints) := gatherInputs inputs
  { out := (r.list settings bytes).map Assembly.Line.render, err := complaints }

/-! ## Tasks -/

/-- The contents of a file, or why it cannot be read. -/
abbrev Files := String → Except FileFault String

/-- Does a task with a loaded registry. -/
def runTask (settings : Settings) (r : Registry) : Task → Outcome
  | .check json => runCheck r json
  | .asm lines => .concat (lines.map (runAsmLine r))
  | .disasm inputs => runDisasm r settings.listing inputs
  | .select vars cover exprs =>
    .concat (exprs.map (runExpr (.new r settings.matching) vars cover))

/-- Reads the settings file, if there is one. -/
def readSettings (files : Files) : Option String → Except Failure Settings
  | none => .ok {}
  | some path =>
    match files path with
    | .error fault => .error (.unreadable fault)
    | .ok text =>
      match Settings.ofText? text with
      | some settings => .ok settings
      | none => .error .settings

/-- Reads extension documents one after another. -/
def readDocuments (files : Files) : List String → Except Failure (List Extension)
  | [] => .ok []
  | path :: paths =>
    match files path with
    | .error fault => .error (.unreadable fault)
    | .ok text =>
      match Extension.ofText? text with
      | none => .error (.document path)
      | some e => (readDocuments files paths).map (e :: ·)

/-- Does what an invocation asks for. Settings that cannot be read end the run without a word. -/
def runInvocation (files : Files) (i : Invocation) : Outcome :=
  match readSettings files i.settings with
  | .error _ => { exit := 1 }
  | .ok settings =>
    if i.documents = [] then
      { exit := 1, err := ["Error: pass at least one --spec <file.json>"] }
    else
      match (readDocuments files i.documents).bind (Registry.load settings.registry) with
      | .error failure => { exit := 1, err := [s!"[!] registry rejected: {failure.message}"] }
      | .ok r => runTask settings r i.task

/-- Runs a command line; one that cannot be understood has exit status 2. -/
def run (files : Files) (arguments : List String) : Outcome :=
  match Invocation.ofArguments? arguments with
  | none => { exit := 2 }
  | some i => runInvocation files i

end CustomIsa.Command
