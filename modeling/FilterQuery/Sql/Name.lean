import FilterQuery.Text.Cut

/-!
# Names of columns and tables

A column name is cut at its last dot and a table name at its first, so a column may be qualified by
a dotted name and a table lies in an undotted schema.
-/
namespace FilterQuery

/-- A column, possibly of a named table. -/
structure ColumnName where
  qualifier : Option String
  name : String
  deriving DecidableEq, Repr

/-- A table, possibly of a named schema. -/
structure TableName where
  schema : Option String
  name : String
  deriving DecidableEq, Repr

/-- Cuts at the last dot, unless nothing stands before or after it. -/
def ColumnName.parse (s : String) : ColumnName :=
  match Text.cutLast '.' s.toList with
  | some (before, after) =>
    if before.isEmpty || after.isEmpty then ⟨none, s⟩
    else ⟨some (String.ofList before), String.ofList after⟩
  | none => ⟨none, s⟩

/-- Cuts at the first dot. -/
def TableName.parse (s : String) : TableName :=
  match Text.cutFirst '.' s.toList with
  | some (before, after) => ⟨some (String.ofList before), String.ofList after⟩
  | none => ⟨none, s⟩

end FilterQuery
