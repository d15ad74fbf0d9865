import FilterQuery.Command.Run

/-!
# The command

Reads the process environment and the files that the command line names, and makes one run of them.
-/
namespace FilterQuery

open Command

/-- The variables that settings come from. -/
def variableNames : List String :=
  ["CONDSPEC_DIALECT", "CONDSPEC_TABLE", "CONDSPEC_COLUMNS", "CONDSPEC_LOG"]

/-- The paths that a command line names. -/
def pathsOf (args : List String) : List String :=
  match Request.ofCommandLine args with
  | .run i =>
    let spec := match i.job with
      | .compile spec _ => spec
      | .ast spec => spec
    i.flags.envFile.toList ++ [spec]
  | _ => []

/-- The bytes of a file, or why there are none. -/
def readBytes (path : String) : IO (Except ReadFailure ByteArray) := do
  try
    return .ok (← IO.FS.readBinFile path)
  catch e =>
    return match e with
      | .noFileOrDirectory .. => .error .missing
      | e => .error (.other (toString e))

/-- The variables that are set. -/
def processEnvironment : IO Environment := do
  let entries ← variableNames.filterMapM fun name => do
    return (← IO.getEnv name).map fun value => (name, value)
  return ⟨entries⟩

end FilterQuery

open FilterQuery FilterQuery.Command in
def main (args : List String) : IO UInt32 := do
  let env ← processEnvironment
  let contents ← (pathsOf args).mapM fun path => do return (path, ← readBytes path)
  let outcome := run args env fun path => (contents.lookup path).getD (.error .missing)
  IO.print outcome.stdout
  match outcome.failure with
  | some failure => IO.eprintln failure.message
  | none => pure ()
  return outcome.exit.toUInt32
