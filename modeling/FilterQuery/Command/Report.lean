import FilterQuery.Encode.Spec
import FilterQuery.Sql.Dialect

/-!
# Reports

A compiled query is reported as text, with a comment line for each parameter, or as JSON.
-/
namespace FilterQuery.Command

/-- A query in a dialect with its parameters. -/
structure CompiledQuery where
  dialect : Dialect
  sql : String
  params : List Scalar

namespace CompiledQuery

/-- The lines of parameters, counted from `n`. -/
def paramLines : Nat → List Scalar → String
  | _, [] => ""
  | n, v :: vs => "\n-- $" ++ String.ofList (digitChars n) ++ ": " ++ v.display ++
      paramLines (n + 1) vs

/-- The query and its parameters below. -/
def text (q : CompiledQuery) : String := q.sql ++ paramLines 1 q.params

def toJson (q : CompiledQuery) : Json :=
  .ofMembers [("dialect", .text q.dialect.key), ("sql", .text q.sql),
    ("params", .array (q.params.map Scalar.toJson))]

end CompiledQuery

end FilterQuery.Command
