import FilterQuery.Command.Environment

/-!
# Settings

A setting is a flag if one is given, else a variable, else a default. What is blank counts as not
given.
-/
namespace FilterQuery.Command

/-- The flags of the command line that settings come from. -/
structure Flags where
  envFile : Option String := none
  dialect : Option String := none
  table : Option String := none
  columns : Option String := none
  logLevel : Option String := none
  deriving DecidableEq, Repr

/-- What a run works with. -/
structure Settings where
  dialect : Dialect
  table : Option String
  columns : List String
  logLevel : String
  deriving DecidableEq, Repr

namespace Settings

/-- The text that a flag or else a variable gives. -/
def chosen (flag : Option String) (key : String) (env : Environment) : Option String :=
  (flag.filter fun v => !Text.allBlank v).or (env.get? key)

/-- The entries of a list of columns, without blank ones. -/
def columnList (s : String) : List String :=
  (((s.toList.splitOn ',').map Text.trimChars).filter (!·.isEmpty)).map String.ofList

/-- The settings that flags and variables make up. -/
def resolve (flags : Flags) (env : Environment) : Except Failure Settings := do
  let dialect ← match chosen flags.dialect "CONDSPEC_DIALECT" env with
    | some name => (Dialect.ofName name).mapError .dialect
    | none => pure .postgres
  let columns := match (chosen flags.columns "CONDSPEC_COLUMNS" env).map columnList with
    | some (c :: cs) => c :: cs
    | _ => ["*"]
  pure {
    dialect
    table := (chosen flags.table "CONDSPEC_TABLE" env).map Text.trim
    columns
    logLevel := (chosen flags.logLevel "CONDSPEC_LOG" env).getD "info" }

def requireTable (s : Settings) : Except Failure String :=
  match s.table with
  | some table => .ok table
  | none => .error .noTable

end Settings

end FilterQuery.Command
