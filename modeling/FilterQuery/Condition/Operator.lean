import FilterQuery.Text.Blank
import FilterQuery.Text.AsciiCase

/-!
# Operators, connectives and directions

The closed vocabulary of conditions. An operator is known by a name, in free case and with `-` or a
space for `_`, or by a numeric code; whatever is neither is unrecognized, which is an operator too.
-/
namespace FilterQuery

inductive Operator where
  | equal
  | notEqual
  | less
  | greater
  | atMost
  | atLeast
  | between
  | like
  | notLike
  | oneOf
  | isNull
  | isNotNull
  | unrecognized
  deriving DecidableEq, Repr

namespace Operator

/-- The recognized operators in the order of their codes. -/
def recognized : List Operator :=
  [equal, notEqual, less, greater, atMost, atLeast, between, like, notLike, oneOf, isNull,
    isNotNull]

/-- The name under which an operator is written. -/
def name : Operator → String
  | equal => "EQ"
  | notEqual => "NEQ"
  | less => "LT"
  | greater => "GT"
  | atMost => "LTE"
  | atLeast => "GTE"
  | between => "BETWEEN"
  | like => "LIKE"
  | notLike => "NOT_LIKE"
  | oneOf => "IN"
  | isNull => "IS_NULL"
  | isNotNull => "IS_NOT_NULL"
  | unrecognized => "UNRECOGNIZED"

/-- The operator of a folded name: each recognized one under its own name, and the comparisons of
order and equality also under a long name. -/
def ofFolded : String → Operator
  | "EQ" | "EQUALS" => equal
  | "NEQ" | "NOT_EQUALS" => notEqual
  | "LT" | "LESS_THAN" => less
  | "GT" | "GREATER_THAN" => greater
  | "LTE" | "LESS_OR_EQUALS" => atMost
  | "GTE" | "GREATER_OR_EQUALS" => atLeast
  | "BETWEEN" => between
  | "LIKE" => like
  | "NOT_LIKE" => notLike
  | "IN" => oneOf
  | "IS_NULL" => isNull
  | "IS_NOT_NULL" => isNotNull
  | _ => unrecognized

/-- Inside a name `-` and a space stand for `_`. -/
def foldSeparator (c : Char) : Char := if c = '-' || c = ' ' then '_' else c

/-- A name without blanks at its ends, in capital letters, with `_` for `-` and spaces. -/
def fold (s : String) : String :=
  String.ofList ((Text.upper (Text.trim s)).toList.map foldSeparator)

def ofName (s : String) : Operator := ofFolded (fold s)

def ofCode (n : Nat) : Operator := recognized[n]?.getD unrecognized

/-- The code of a recognized operator. -/
def code? (o : Operator) : Option Nat := recognized.idxOf? o

/-- The operand is never read. What is not recognized compiles to nothing, so its operand is not
read either. -/
def ignoresOperand : Operator → Bool
  | isNull | isNotNull | unrecognized => true
  | _ => false

end Operator

/-- How the children of a group combine. -/
inductive Connective where
  | and
  | or
  deriving DecidableEq, Repr

namespace Connective

/-- The name in capital letters. -/
def name : Connective → String
  | and => "AND"
  | or => "OR"

/-- The name under which a document spells it. -/
def key : Connective → String
  | and => "and"
  | or => "or"

end Connective

inductive Direction where
  | ascending
  | descending
  deriving DecidableEq, Repr

namespace Direction

/-- The name in capital letters. -/
def name : Direction → String
  | ascending => "ASC"
  | descending => "DESC"

/-- The name under which a document spells it. -/
def key : Direction → String
  | ascending => "asc"
  | descending => "desc"

end Direction

end FilterQuery
