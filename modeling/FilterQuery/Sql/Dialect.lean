import FilterQuery.Decimal.Basic
import FilterQuery.Text.AsciiCase
import FilterQuery.Text.Blank
import FilterQuery.Text.Quoted

/-!
# Dialects

The two dialects differ in the quotes around names and in the placeholders for parameters.
-/
namespace FilterQuery

/-- The SQL that a query is written in. -/
inductive Dialect where
  | postgres
  | mysql
  deriving DecidableEq, Repr

namespace Dialect

/-- The name by which a setting chooses the dialect. -/
def key : Dialect → String
  | postgres => "postgres"
  | mysql => "mysql"

def title : Dialect → String
  | postgres => "PostgreSQL"
  | mysql => "MySQL"

def quote : Dialect → Char
  | postgres => '"'
  | mysql => '\x60'

/-- A name between quotes, quotes inside written twice. -/
def quoted (d : Dialect) (name : String) : List Char := Text.enclose d.quote name.toList

/-- The placeholder of the parameter after `index` others. -/
def placeholder (d : Dialect) (index : Nat) : List Char :=
  match d with
  | postgres => '$' :: digitChars (index + 1)
  | mysql => ['?']

/-- A name that no dialect has, as it was compared. -/
structure Unsupported where
  name : String
  deriving DecidableEq, Repr

def Unsupported.message (e : Unsupported) : String :=
  "Unsupported SQL dialect: " ++ e.name ++ " (expected `postgres` or `mysql`)"

/-- The dialect of a name, which may be an alias, in free ASCII case and among blanks. -/
def ofName (s : String) : Except Unsupported Dialect :=
  match Text.lower (Text.trim s) with
  | "postgres" | "postgresql" | "pg" => .ok postgres
  | "mysql" | "mariadb" => .ok mysql
  | other => .error ⟨other⟩

end Dialect

end FilterQuery
