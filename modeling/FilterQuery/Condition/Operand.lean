import FilterQuery.Decimal.Layout
import FilterQuery.Text.Quoted

/-!
# Operands

The value of a predicate is one scalar or a list of scalars. Integers and floating-point numbers
are different scalars even where they denote the same number.
-/
namespace FilterQuery

inductive Scalar where
  | null
  | bool (b : Bool)
  | int (i : Int64)
  | float (x : Float)
  | text (s : String)
  deriving Repr

namespace Scalar

/-- Equal as values: floating-point numbers compare as numbers, so the two zeros are equal and what
is no number equals nothing. -/
def same : Scalar → Scalar → Bool
  | null, null => true
  | bool a, bool b => a == b
  | int a, int b => a == b
  | float a, float b => a == b
  | text a, text b => a == b
  | _, _ => false

/-- The text for readers: SQL's notation of literals, numbers without an exponent. -/
def display : Scalar → String
  | null => "NULL"
  | bool b => if b then "true" else "false"
  | int i => String.ofList (integerChars i.toInt)
  | float x => String.ofList (Layout.display.text x)
  | text s => String.ofList (Text.enclose '\x27' s.toList)

end Scalar

/-- What a field is tested against. -/
inductive Operand where
  | scalar (value : Scalar)
  | list (values : List Scalar)
  deriving Repr

namespace Operand

def items? : Operand → Option (List Scalar)
  | list values => some values
  | scalar _ => none

/-- Equal form and equal scalars. -/
def same : Operand → Operand → Bool
  | scalar a, scalar b => a.same b
  | list as, list bs => as.length == bs.length && (as.zip bs).all fun (a, b) => a.same b
  | _, _ => false

/-- The text for readers. -/
def display : Operand → String
  | scalar value => value.display
  | list values => "[" ++ ", ".intercalate (values.map Scalar.display) ++ "]"

end Operand

end FilterQuery
