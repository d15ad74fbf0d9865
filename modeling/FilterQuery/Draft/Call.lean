import FilterQuery.Condition.Spec
import FilterQuery.Draft.Event
import FilterQuery.Sql.Select

/-!
# Calls

A query is drafted by calls: tests that add a clause, scopes that hold calls of their own, and the
settings of order, offset and limit.
-/
namespace FilterQuery

/-- A test that becomes one clause. -/
inductive Test where
  | compare (field : String) (c : Comparison) (operand : Operand)
  | oneOf (field : String) (values : List Scalar)
  | between (field : String) (low high : Scalar)
  | isNull (field : String) (negated : Bool)

namespace Test

/-- The operand of a comparison: a list is a tuple of its items. -/
def operandExpr : Operand → Expr
  | .scalar v => .value v
  | .list vs => .tuple (vs.map .value)

def expr : Test → Expr
  | compare field c operand => .binary (.named field) (.compare c) (operandExpr operand)
  | oneOf field values => .inList (.named field) (values.map .value)
  | between field low high => .between (.named field) (.value low) (.value high)
  | isNull field negated => .isNull (.named field) negated

def words : Test → List String
  | compare field c operand => ["where", field, c.sign, operand.display]
  | oneOf field values => ["where_in", field, (Operand.list values).display]
  | between field low high => ["where_between", field, low.display, high.display]
  | isNull field false => ["where_null", field]
  | isNull field true => ["where_not_null", field]

end Test

/-- One step in drafting a query. -/
inductive Call where
  /-- Adds a clause to the innermost scope. -/
  | test (connector : Connective) (t : Test)
  /-- Opens a scope, makes the calls in it and closes it. -/
  | scope (kind : Connective) (body : List Call)
  | orderBy (key : SortKey)
  | offset (n : UInt64)
  | limit (n : UInt64)
  /-- Reports an event and changes nothing. -/
  | note (e : Event)

namespace Call

def countText (n : UInt64) : String := String.ofList (digitChars n.toNat)

mutual

/-- A call in words, a scope over several lines. Notes are no calls of their own. -/
def lines : Call → List String
  | test .and t => [" ".intercalate t.words]
  | test .or t => ["or_" ++ " ".intercalate t.words]
  | scope kind body => (kind.key ++ " \x7b") :: (linesOfAll body ++ ["\x7d"])
  | orderBy key => ["order_by " ++ key.field ++ " " ++ key.direction.name]
  | offset n => ["offset " ++ countText n]
  | limit n => ["limit " ++ countText n]
  | note _ => []

def linesOfAll : List Call → List String
  | [] => []
  | c :: cs => c.lines ++ linesOfAll cs

end

end Call

end FilterQuery
