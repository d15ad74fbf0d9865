import FilterQuery.Condition.Basic
import FilterQuery.Sql.Dialect

/-!
# Events

What the making of a query reports: each part of a condition that leaves no trace in the query, and
the finished query.
-/
namespace FilterQuery

inductive Event where
  | emptyGroup (c : Connective)
  /-- A scope in which no clause was left. -/
  | emptyScope (c : Connective)
  /-- Membership in what is no list. -/
  | noList (field : String) (operand : Operand)
  /-- A range of what is no list of at least two. -/
  | noPair (field : String) (operand : Operand)
  | unrecognized (field : String)
  | generated (d : Dialect) (params : Nat) (sql : String)

namespace Event

def message : Event → String
  | emptyGroup c => "Skipping empty " ++ c.name ++ " group"
  | emptyScope c => "Skipping empty " ++ c.name ++ " scope"
  | noList _ _ => "IN operand is not a list, skipping"
  | noPair _ _ => "BETWEEN operand is not a pair, skipping"
  | unrecognized _ => "Unrecognized operator, skipping"
  | generated _ _ sql => "Generated select: " ++ sql

/-- The details of an event, by name. -/
def details : Event → List (String × String)
  | emptyGroup _ | emptyScope _ => []
  | noList field operand | noPair field operand =>
    [("field", field), ("value", operand.display)]
  | unrecognized field => [("field", field)]
  | generated d params _ =>
    [("dialect", d.title), ("params", String.ofList (digitChars params))]

end Event

end FilterQuery
