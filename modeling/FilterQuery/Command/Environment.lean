import FilterQuery.Command.Failure
import FilterQuery.Text.Cut

/-!
# Environment

Variables, and the files that overlay them. A file is a list of lines: blank ones, comments, and
assignments of a value, possibly quoted, to a key. A later assignment wins.
-/
namespace FilterQuery.Command

/-- Variables by name; the first entry of a name counts. -/
structure Environment where
  entries : List (String × String) := []

namespace Environment

def set (env : Environment) (key value : String) : Environment := ⟨(key, value) :: env.entries⟩

/-- The value of a variable, blank or not. -/
def value? (env : Environment) (key : String) : Option String := env.entries.lookup key

/-- The value of a variable that is not blank. -/
def get? (env : Environment) (key : String) : Option String :=
  (env.value? key).filter fun v => !Text.allBlank v

@[simp] theorem value?_set_self (env : Environment) (key value : String) :
    (env.set key value).value? key = some value := by
  simp [set, value?]

theorem value?_set_of_ne {env : Environment} {key other : String} (h : other ≠ key)
    (value : String) : (env.set key value).value? other = env.value? other := by
  have hb : (other == key) = false := by simpa using h
  simp [set, value?, List.lookup_cons, hb]

end Environment

/-- What a line of an environment file says. -/
inductive EnvLine where
  | nothing
  | assignment (key value : String)
  | noAssignment
  | emptyKey
  deriving DecidableEq, Repr

namespace EnvLine

/-- The text between quotes of one kind, or the text itself. -/
def unquote : List Char → List Char
  | [] => []
  | q :: rest =>
    if (q = '"' || q = '\x27') && rest.getLast? = some q then rest.dropLast else q :: rest

/-- The line without a leading `export`. -/
def withoutExport (cs : List Char) : List Char :=
  let word := "export ".toList
  if word.isPrefixOf cs then cs.drop word.length else cs

/-- What a line says. Blanks around the line, the key and the value do not count. -/
def ofChars (line : List Char) : EnvLine :=
  match Text.trimChars line with
  | [] => nothing
  | '#' :: _ => nothing
  | cs =>
    match Text.cutFirst '=' (withoutExport cs) with
    | none => noAssignment
    | some (key, value) =>
      match Text.trimChars key with
      | [] => emptyKey
      | key => assignment (String.ofList key) (String.ofList (unquote (Text.trimChars value)))

end EnvLine

namespace Environment

/-- Applies lines from the one of number `line` on, up to the first that is refused. -/
def applyLines (env : Environment) (line : Nat) :
    List (List Char) → Environment × Option ConfigFault
  | [] => (env, none)
  | cs :: rest =>
    match EnvLine.ofChars cs with
    | .nothing => env.applyLines (line + 1) rest
    | .assignment key value => (env.set key value).applyLines (line + 1) rest
    | .noAssignment => (env, some (.noAssignment line))
    | .emptyKey => (env, some (.emptyKey line))

/-- Overlays the content of a file. What stands before a refused line stays. -/
def overlay (env : Environment) (content : String) : Environment × Option ConfigFault :=
  env.applyLines 1 (content.toList.splitOn '\n')

/-- Overlays a file that was read, or could not be. -/
def overlayFile (env : Environment) (path : String) (file : Except ReadFailure String) :
    Environment × Option ConfigFault :=
  match file with
  | .ok content => env.overlay content
  | .error cause => (env, some (.unreadable path cause))

end Environment

/-- The text of a file from its bytes. -/
def textOfBytes (file : Except ReadFailure ByteArray) : Except ReadFailure String := do
  let bytes ← file
  match String.fromUTF8? bytes with
  | some s => .ok s
  | none => .error .notText

end FilterQuery.Command
