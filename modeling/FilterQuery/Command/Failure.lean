import FilterQuery.Decode.Error
import FilterQuery.Sql.Dialect

/-!
# Failures of the command

Each failure has a cause, and each cause a wording.
-/
namespace FilterQuery.Command

/-- Why a file gives no text. -/
inductive ReadFailure where
  | missing
  | notText
  | other (reason : String)
  deriving DecidableEq, Repr

def ReadFailure.message : ReadFailure → String
  | missing => "No such file or directory (os error 2)"
  | notText => "stream did not contain valid UTF-8"
  | other reason => reason

/-- Why an environment file is refused. Lines are counted from one. -/
inductive ConfigFault where
  | unreadable (path : String) (cause : ReadFailure)
  | noAssignment (line : Nat)
  | emptyKey (line : Nat)
  deriving DecidableEq, Repr

def ConfigFault.message : ConfigFault → String
  | unreadable path cause => "Failed to read env file " ++ path ++ ": " ++ cause.message
  | noAssignment line =>
    "Invalid env file: malformed line " ++ String.ofList (digitChars line) ++
      " (expected KEY=VALUE)"
  | emptyKey line => "Invalid env file: empty key at line " ++ String.ofList (digitChars line)

inductive Failure where
  | config (cause : ConfigFault)
  | dialect (cause : Dialect.Unsupported)
  | specFile (cause : ReadFailure)
  | specText (cause : DecodeError)
  | noTable

/-- The wording of a refused spec; what is no JSON is said to be so. -/
def specTextMessage : DecodeError → String
  | .malformed => "Failed to decode condition spec: not a JSON document"
  | .mismatch m => "Failed to decode condition spec: " ++ m.message

def Failure.message : Failure → String
  | config cause => "Configuration error: " ++ cause.message
  | dialect cause => "Invalid dialect setting: " ++ cause.message
  | specFile cause => "Failed to read the spec file: " ++ cause.message
  | specText cause => "Failed to decode the condition spec: " ++ specTextMessage cause
  | noTable => "Missing required setting `table` (pass --table or set CONDSPEC_TABLE)"

end FilterQuery.Command
