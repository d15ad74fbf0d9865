import FilterQuery.Condition.Basic
import FilterQuery.Json.Basic

/-!
# Why a document is refused

Either the text is no JSON where the decoder reads it, or it is JSON and says the wrong thing. The
second kind has a cause, and each cause a wording.
-/
namespace FilterQuery

/-- What stood where something else was expected. -/
inductive Found where
  | null
  | bool (b : Bool)
  | integer (i : Int)
  | float (x : Float)
  | string (s : String)
  | sequence
  | map

/-- How a document says the wrong thing. -/
inductive Mismatch where
  | kind (found : Found) (expected : String)
  | belowZero (i : Int)
  | unknownVariant (name : String) (known : List String)
  /-- A value fits no variant of a kind. -/
  | noVariant (name : String)
  | duplicateField (name : String)
  | missingField (name : String)
  /-- An array stands for a record and ends too early. -/
  | tooShort (count : Nat) (record : String) (size : Nat)
  | fault (f : Condition.Fault)

/-- Why a document is refused. -/
inductive DecodeError where
  | malformed
  | mismatch (m : Mismatch)

namespace Found

def message : Found → String
  | null => "null"
  | bool b => "boolean `" ++ (if b then "true" else "false") ++ "`"
  | integer i => "integer `" ++ String.ofList (integerChars i) ++ "`"
  | float x => "floating point `" ++ String.ofList (Layout.json.text x) ++ "`"
  | string s => "string " ++ Text.showQuoted s
  | sequence => "sequence"
  | map => "map"

end Found

namespace Mismatch

/-- The names that were expected: two are joined by `or`, more are listed. -/
def alternatives (known : List String) : String :=
  let names := known.map fun name => "`" ++ name ++ "`"
  if names.length ≤ 2 then " or ".intercalate names else "one of " ++ ", ".intercalate names

def message : Mismatch → String
  | kind found expected => "invalid type: " ++ found.message ++ ", expected " ++ expected
  | belowZero i => "invalid value: " ++ (Found.integer i).message ++ ", expected u64"
  | unknownVariant name known =>
    "unknown variant `" ++ name ++ "`, expected " ++ alternatives known
  | noVariant name => "data did not match any variant of untagged enum " ++ name
  | duplicateField name => "duplicate field `" ++ name ++ "`"
  | missingField name => "missing field `" ++ name ++ "`"
  | tooShort count record size =>
    "invalid length " ++ String.ofList (digitChars count) ++ ", expected struct " ++ record ++
      " with " ++ String.ofList (digitChars size) ++ " elements"
  | fault f => f.message

end Mismatch

end FilterQuery
