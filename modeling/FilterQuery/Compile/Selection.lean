import FilterQuery.Compile.Basic
import FilterQuery.Draft.Basic

/-!
# Selections

A selection is the query of a spec on the columns of a table, with the events of its making.
-/
namespace FilterQuery

/-- The text and the parameters of a query, and what its making reported. -/
structure Selection where
  sql : String
  params : List Scalar
  events : List Event

namespace Selection

/-- The selection that calls draft. -/
def ofCalls (dialect : Dialect) (table : String) (columns : List String) (calls : List Call) :
    Selection :=
  let (draft, events) := ((Draft.ofTable table).withColumns columns).runAll calls
  let output := draft.render dialect
  ⟨output.sql, output.params,
    events ++ [.generated dialect output.params.length output.sql]⟩

/-- The selection of a spec; without one, all rows are selected. -/
def make (dialect : Dialect) (table : String) (columns : List String)
    (spec : Option (Spec Condition)) : Selection :=
  let calls := match spec with
    | some spec => spec.calls
    | none => []
  ofCalls dialect table columns calls

end Selection

end FilterQuery
