import FilterQuery.Condition.Operand
import FilterQuery.Condition.Operator
import FilterQuery.Sql.Name

/-!
# Queries

The expressions and the clauses of a SELECT, with values that are bound and not written.
-/
namespace FilterQuery

/-- Comparisons of a field with an operand. -/
inductive Comparison where
  | equal
  | notEqual
  | less
  | greater
  | atMost
  | atLeast
  | like
  | notLike
  deriving DecidableEq, Repr

namespace Comparison

/-- The comparison that an operator asks for. Membership, ranges and null checks are tests of their
own. -/
def ofOperator : Operator → Option Comparison
  | .equal => some equal
  | .notEqual => some notEqual
  | .less => some less
  | .greater => some greater
  | .atMost => some atMost
  | .atLeast => some atLeast
  | .like => some like
  | .notLike => some notLike
  | .between | .oneOf | .isNull | .isNotNull | .unrecognized => none

/-- The sign in a record of calls. -/
def sign : Comparison → String
  | equal => "="
  | notEqual => "<>"
  | less => "<"
  | greater => ">"
  | atMost => "<="
  | atLeast => ">="
  | like => "like"
  | notLike => "not like"

end Comparison

inductive BinaryOp where
  | compare (c : Comparison)
  | combine (c : Connective)
  deriving DecidableEq, Repr

inductive Expr where
  | column (name : ColumnName)
  | value (v : Scalar)
  /-- All columns. -/
  | wildcard
  | tuple (items : List Expr)
  | binary (left : Expr) (op : BinaryOp) (right : Expr)
  /-- Membership in a list; nothing is a member of the empty one. -/
  | inList (e : Expr) (items : List Expr)
  /-- A range that includes its bounds. -/
  | between (e low high : Expr)
  | isNull (e : Expr) (negated : Bool)

namespace Expr

/-- The column of a written name. -/
def named (s : String) : Expr := .column (ColumnName.parse s)

def join (c : Connective) (left right : Expr) : Expr := .binary left (.combine c) right

end Expr

/-- The table of a query, possibly under a label. -/
structure Source where
  table : TableName
  label : Option String := none
  deriving DecidableEq, Repr

structure OrderItem where
  expr : Expr
  direction : Option Direction := none

/-- A query; no columns means all columns. -/
structure Select where
  columns : List Expr := []
  source : Option Source := none
  condition : Option Expr := none
  order : List OrderItem := []
  limit : Option Expr := none
  offset : Option Expr := none

end FilterQuery
