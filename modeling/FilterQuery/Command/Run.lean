import FilterQuery.Command.Invocation
import FilterQuery.Command.Report
import FilterQuery.Compile.Selection
import FilterQuery.Decode.Spec

/-!
# Running the command

A run goes through the environment file, the settings, the spec file and, to compile, the table. It
ends with the first failure or with one answer.
-/
namespace FilterQuery.Command

/-- The files that a run can read, by path. -/
abbrev Files := String → Except ReadFailure ByteArray

/-- The environment with the file of the flags, if there is one. -/
def loadEnvironment (flags : Flags) (env : Environment) (files : Files) :
    Except Failure Environment :=
  match flags.envFile with
  | none => .ok env
  | some path =>
    match env.overlayFile path (textOfBytes (files path)) with
    | (env, none) => .ok env
    | (_, some cause) => .error (.config cause)

def loadSpec (path : String) (files : Files) : Except Failure (Spec Condition) := do
  let content ← (textOfBytes (files path)).mapError .specFile
  (Decode.ofText Decode.spec content).mapError .specText

def compileQuery (settings : Settings) (spec : Spec Condition) : Except Failure CompiledQuery := do
  let table ← settings.requireTable
  let selection := Selection.make settings.dialect table settings.columns (some spec)
  pure ⟨settings.dialect, selection.sql, selection.params⟩

def Invocation.answer (i : Invocation) (env : Environment) (files : Files) :
    Except Failure String := do
  let env ← loadEnvironment i.flags env files
  let settings ← Settings.resolve i.flags env
  match i.job with
  | .compile path json =>
    let spec ← loadSpec path files
    let query ← compileQuery settings spec
    pure (if json then query.toJson.prettyText else query.text)
  | .ast path =>
    let spec ← loadSpec path files
    pure spec.toJson.prettyText

/-- What is seen of a run from outside. -/
structure Outcome where
  exit : Nat
  stdout : String := ""
  failure : Option Failure := none

/-- The name and the version of the command. -/
def versionText : String := "condspec 0.1.0"

def run (args : List String) (env : Environment) (files : Files) : Outcome :=
  match Request.ofCommandLine args with
  | .rejected => { exit := 2 }
  | .version => { exit := 0, stdout := versionText ++ "\n" }
  | .run i =>
    match i.answer env files with
    | .ok text => { exit := 0, stdout := text ++ "\n" }
    | .error failure => { exit := 1, failure := some failure }

end FilterQuery.Command
