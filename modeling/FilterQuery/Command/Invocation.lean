import FilterQuery.Command.Settings

/-!
# Command lines

A command line names a subcommand. The flags of the settings may stand before it or after it, each
once on either side, and the one after it counts. A value follows its option as the next argument
or after `=`.
-/
namespace FilterQuery.Command

/-- What the command is to do. -/
inductive Job where
  /-- Compile a spec file, and print the query as text or as JSON. -/
  | compile (spec : String) (json : Bool)
  /-- Print a spec file in its normal form. -/
  | ast (spec : String)
  deriving DecidableEq, Repr

/-- A job and the flags it is run under. -/
structure Invocation where
  flags : Flags
  job : Job
  deriving DecidableEq, Repr

/-- What a command line asks for. -/
inductive Request where
  | run (i : Invocation)
  | version
  | rejected
  deriving DecidableEq, Repr

/-- One argument by its form. -/
inductive Argument where
  | option (name : String) (value : Option String)
  | stop
  /-- Another argument that begins with a dash. -/
  | dashed (letters : List Char)
  | plain (s : String)
  deriving DecidableEq, Repr

namespace Argument

/-- The form of an argument. A single dash is plain. -/
def ofString (s : String) : Argument :=
  match s.toList with
  | ['-'] => plain s
  | ['-', '-'] => stop
  | '-' :: '-' :: cs =>
    match Text.cutFirst '=' cs with
    | some (name, value) => option (String.ofList name) (some (String.ofList value))
    | none => option (String.ofList cs) none
  | '-' :: cs => dashed cs
  | _ => plain s

/-- The argument as the value of an option before it. -/
def value? : Argument → Option String
  | plain s => some s
  | _ => none

end Argument

/-- What was given on one side of the subcommand. -/
structure Given where
  flags : Flags := {}
  spec : Option String := none
  json : Bool := false
  deriving DecidableEq, Repr

namespace Given

/-- A value for what had none. -/
def once (old : Option String) (value : String) : Option (Option String) :=
  match old with
  | none => some (some value)
  | some _ => none

def setFlag (g : Given) (name value : String) : Option Given :=
  match name with
  | "env-file" =>
    (once g.flags.envFile value).map fun v => { g with flags := { g.flags with envFile := v } }
  | "dialect" =>
    (once g.flags.dialect value).map fun v => { g with flags := { g.flags with dialect := v } }
  | "table" =>
    (once g.flags.table value).map fun v => { g with flags := { g.flags with table := v } }
  | "columns" =>
    (once g.flags.columns value).map fun v => { g with flags := { g.flags with columns := v } }
  | "log-level" =>
    (once g.flags.logLevel value).map fun v => { g with flags := { g.flags with logLevel := v } }
  | _ => none

def setOption (g : Given) (name value : String) : Option Given :=
  if name = "spec" then (once g.spec value).map fun v => { g with spec := v }
  else g.setFlag name value

/-- The arguments of a subcommand; `printsJson` tells whether it may print JSON. -/
def ofArguments (printsJson : Bool) : List Argument → Given → Option Given
  | [], g => some g
  | [.stop], g => some g
  | .option name (some value) :: rest, g => do
    let g ← g.setOption name value
    ofArguments printsJson rest g
  | .option "json" none :: rest, g =>
    if printsJson && !g.json then ofArguments printsJson rest { g with json := true } else none
  | .option name none :: value :: rest, g => do
    let g ← g.setOption name (← value.value?)
    ofArguments printsJson rest g
  | _, _ => none

end Given

namespace Flags

/-- The flags after the subcommand, and those before it where there are none after. -/
def orElse (later earlier : Flags) : Flags :=
  ⟨later.envFile.or earlier.envFile, later.dialect.or earlier.dialect,
    later.table.or earlier.table, later.columns.or earlier.columns,
    later.logLevel.or earlier.logLevel⟩

end Flags

namespace Request

/-- A subcommand with its arguments, after the flags before it. -/
def ofSubcommand (before : Given) (printsJson : Bool) (job : String → Bool → Job)
    (rest : List Argument) : Request :=
  match Given.ofArguments printsJson rest {} with
  | some { flags, spec := some spec, json } => run ⟨flags.orElse before.flags, job spec json⟩
  | _ => rejected

/-- The arguments up to the subcommand. -/
def ofArguments : List Argument → Given → Request
  | .plain "compile" :: rest, g => ofSubcommand g true .compile rest
  | .plain "ast" :: rest, g => ofSubcommand g false (fun spec _ => .ast spec) rest
  | .option "version" none :: _, _ => version
  | .dashed ('V' :: _) :: _, _ => version
  | .option name (some value) :: rest, g =>
    match g.setFlag name value with
    | some g => ofArguments rest g
    | none => rejected
  | .option name none :: .plain value :: rest, g =>
    match g.setFlag name value with
    | some g => ofArguments rest g
    | none => rejected
  | _, _ => rejected

/-- What a command line asks for. -/
def ofCommandLine (args : List String) : Request := ofArguments (args.map Argument.ofString) {}

end Request

end FilterQuery.Command
