import CustomIsa.Expr.Parser
import CustomIsa.Text.Line
/-! # Command-line arguments

A command line names a settings file and extension documents, and a task with arguments of its own:

* `check` with an optional `--json`,
* `asm` and `disasm` with at least one line or input,
* `match` with at least one expression, declarations `--var name:type` and an optional `--cover`.

Options stand anywhere before `--`. Those for files may be given before the task or among its
arguments; the latter replace the former. `Invocation.ofArguments?` gives nothing for a command line
that cannot be understood. -/
namespace CustomIsa.Command

/-- What a command line asks for. -/
inductive Task where
  | check (json : Bool)
  | asm (lines : List String)
  | disasm (inputs : List String)
  | select (vars : Typing) (cover : Bool) (exprs : List String)

/-- A task and the files it works with. -/
structure Invocation where
  settings : Option String
  documents : List String
  task : Task

/-- The places where arguments stand: before the task, or after its name. -/
inductive Scope where
  | top
  | check
  | asm
  | disasm
  | select
  deriving Repr, DecidableEq

/-- The scope of the task of the given name. -/
def Scope.ofName? : String → Option Scope
  | "check" => some .check
  | "asm" => some .asm
  | "disasm" => some .disasm
  | "match" => some .select
  | _ => none

/-- The options that take a value. -/
inductive ValueOption where
  | settings
  | document
  | var
  deriving Repr, DecidableEq

/-- The options that take none. -/
inductive Flag where
  | json
  | cover
  deriving Repr, DecidableEq

/-- An option. -/
inductive Opt where
  | valued (o : ValueOption)
  | flag (f : Flag)
  deriving Repr, DecidableEq

/-- The option of a long name in a scope. -/
def Opt.ofLong? (scope : Scope) : String → Option Opt
  | "config" => some (.valued .settings)
  | "spec" => some (.valued .document)
  | "var" => if scope = .select then some (.valued .var) else none
  | "cover" => if scope = .select then some (.flag .cover) else none
  | "json" => if scope = .check then some (.flag .json) else none
  | _ => none

/-- The option of a letter. -/
def Opt.ofLetter? : Char → Option Opt
  | 'c' => some (.valued .settings)
  | 's' => some (.valued .document)
  | _ => none

/-- An argument: the end of the options, an option with or without a value of its own, or a plain
one; a single dash is plain. -/
inductive Piece where
  | separator
  | option (o : Opt) (value : Option String)
  | plain (text : String)

/-- The option in an argument that starts with two dashes. -/
def longOption? (scope : Scope) (cs : List Char) : Option Piece :=
  match Text.splitFirst (· = '=') cs with
  | some (name, value) =>
    (Opt.ofLong? scope (String.ofList name)).map (.option · (some (String.ofList value)))
  | none => (Opt.ofLong? scope (String.ofList cs)).map (.option · none)

/-- The option in an argument that starts with one dash and a letter; a value may follow directly
or after an equals sign. -/
def shortOption? (letter : Char) (more : List Char) : Option Piece :=
  (Opt.ofLetter? letter).map fun o =>
    match more with
    | [] => .option o none
    | '=' :: value => .option o (some (String.ofList value))
    | value => .option o (some (String.ofList value))

/-- Takes an argument apart; nothing for an unknown option. -/
def Piece.ofArgument? (scope : Scope) (argument : String) : Option Piece :=
  match argument.toList with
  | ['-', '-'] => some .separator
  | '-' :: '-' :: cs => longOption? scope cs
  | '-' :: letter :: more => shortOption? letter more
  | _ => some (.plain argument)

/-- Whether an argument may be the value of the option before it. -/
def isValue (argument : String) : Bool :=
  match argument.toList with
  | '-' :: _ :: _ => false
  | _ => true

/-- What the arguments of one scope give. -/
structure Given where
  settings : Option String := none
  documents : List String := []
  vars : List (String × IntType) := []
  flags : List Flag := []
  plain : List String := []

/-- Reads a declaration `name:type`. -/
def declaration? (text : String) : Option (String × IntType) :=
  match Text.splitFirst (· = ':') text.toList with
  | none => none
  | some (name, ty) =>
    (IntType.ofName? (String.ofList ty)).map (String.ofList (Text.trimChars name), ·)

/-- Adds an option with its value; a file name may not be empty, and there is one settings file. -/
def Given.addValue? (g : Given) (o : ValueOption) (value : String) : Option Given :=
  match o with
  | .settings =>
    if value = "" ∨ g.settings.isSome then none else some { g with settings := some value }
  | .document => if value = "" then none else some { g with documents := g.documents ++ [value] }
  | .var => (declaration? value).map fun d => { g with vars := g.vars ++ [d] }

/-- Adds a flag, which may be given once. -/
def Given.addFlag? (g : Given) (f : Flag) : Option Given :=
  if f ∈ g.flags then none else some { g with flags := f :: g.flags }

/-- Reads the arguments of a scope; before the task, a plain argument names the task, and the
arguments after it are left. -/
def readScope (scope : Scope) (g : Given) :
    List String → Option (Given × Option (Scope × List String))
  | [] => some (g, none)
  | argument :: rest =>
    match Piece.ofArgument? scope argument with
    | none => none
    | some .separator =>
      if scope = .top then none else some ({ g with plain := g.plain ++ rest }, none)
    | some (.plain text) =>
      if scope = .top then (Scope.ofName? text).map fun task => (g, some (task, rest))
      else readScope scope { g with plain := g.plain ++ [text] } rest
    | some (.option (.flag f) none) => (g.addFlag? f).bind (readScope scope · rest)
    | some (.option (.flag _) (some _)) => none
    | some (.option (.valued o) (some value)) => (g.addValue? o value).bind (readScope scope · rest)
    | some (.option (.valued o) none) =>
      match rest with
      | [] => none
      | value :: rest =>
        if isValue value then (g.addValue? o value).bind (readScope scope · rest) else none

/-- The task that the arguments after its name give. -/
def task? (scope : Scope) (g : Given) : Option Task :=
  match scope with
  | .top => none
  | .check => if g.plain = [] then some (.check (.json ∈ g.flags)) else none
  | .asm => if g.plain = [] then none else some (.asm g.plain)
  | .disasm => if g.plain = [] then none else some (.disasm g.plain)
  | .select =>
    if g.plain = [] then none else some (.select (.ofList g.vars) (.cover ∈ g.flags) g.plain)

/-- Reads a command line. -/
def Invocation.ofArguments? (arguments : List String) : Option Invocation :=
  match readScope .top {} arguments with
  | some (outer, some (scope, rest)) =>
    match readScope scope {} rest with
    | some (inner, none) =>
      (task? scope inner).map fun task =>
        { settings := inner.settings.or outer.settings
          documents := if inner.documents = [] then outer.documents else inner.documents
          task }
    | _ => none
  | _ => none

/-- The files that an invocation reads. -/
def Invocation.files (i : Invocation) : List String := i.settings.toList ++ i.documents

end CustomIsa.Command
