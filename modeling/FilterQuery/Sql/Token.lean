import FilterQuery.Sql.Select

/-!
# The text of a query as tokens

A query is spelled with three kinds of tokens: fixed words, names and bound values. What a user
supplies is only ever a name or a bound value.
-/
namespace FilterQuery.Sql

/-- The fixed words, with the blanks that belong to them. -/
inductive Word where
  | select
  | star
  | comma
  | dot
  | opening
  | closing
  | source
  | label
  | condition
  | operation (op : BinaryOp)
  /-- Stands for a membership that never holds. -/
  | never
  | among
  | within
  | upTo
  | isNull (negated : Bool)
  | order
  | direction (d : Direction)
  | limit
  | offset
  deriving DecidableEq, Repr

/-- The text of an operation on two expressions. -/
def operationText : BinaryOp → String
  | .compare .equal => " = "
  | .compare .notEqual => " <> "
  | .compare .less => " < "
  | .compare .greater => " > "
  | .compare .atMost => " <= "
  | .compare .atLeast => " >= "
  | .compare .like => " LIKE "
  | .compare .notLike => " NOT LIKE "
  | .combine .and => " AND "
  | .combine .or => " OR "

namespace Word

def text : Word → String
  | select => "SELECT "
  | star => "*"
  | comma => ", "
  | dot => "."
  | opening => "("
  | closing => ")"
  | source => " FROM "
  | label => " AS "
  | condition => " WHERE "
  | operation op => operationText op
  | never => "(1 = 0)"
  | among => " IN ("
  | within => " BETWEEN "
  | upTo => " AND "
  | isNull false => " IS NULL"
  | isNull true => " IS NOT NULL"
  | order => " ORDER BY "
  | direction .ascending => " ASC"
  | direction .descending => " DESC"
  | limit => " LIMIT "
  | offset => " OFFSET "

end Word

inductive Token where
  | word (w : Word)
  | name (s : String)
  | bound (v : Scalar)

/-- Token lists with commas between them. -/
def separated : List (List Token) → List Token
  | [] => []
  | [ts] => ts
  | ts :: rest => ts ++ .word .comma :: separated rest

end FilterQuery.Sql

namespace FilterQuery

open Sql (Token Word separated)

/-- A part and a name, or a name alone. -/
def Sql.dotted (part : Option String) (name : String) : List Token :=
  match part with
  | some part => [.name part, .word .dot, .name name]
  | none => [.name name]

namespace Expr

mutual

/-- Every compound expression stands in parentheses. -/
def tokens : Expr → List Token
  | column c => Sql.dotted c.qualifier c.name
  | value v => [.bound v]
  | wildcard => [.word .star]
  | tuple items => .word .opening :: (separated (tokensOfAll items) ++ [.word .closing])
  | binary left op right =>
    .word .opening :: (left.tokens ++ .word (.operation op) :: (right.tokens ++ [.word .closing]))
  | inList _ [] => [.word .never]
  | inList e (i :: is) =>
    .word .opening :: (e.tokens ++ .word .among ::
      (separated (tokensOfAll (i :: is)) ++ [.word .closing, .word .closing]))
  | between e low high =>
    .word .opening :: (e.tokens ++ .word .within :: (low.tokens ++ .word .upTo ::
      (high.tokens ++ [.word .closing])))
  | isNull e negated =>
    .word .opening :: (e.tokens ++ [.word (.isNull negated), .word .closing])

def tokensOfAll : List Expr → List (List Token)
  | [] => []
  | e :: es => e.tokens :: tokensOfAll es

end

end Expr

namespace Source

def tokens (s : Source) : List Token :=
  .word .source :: Sql.dotted s.table.schema s.table.name ++
    match s.label with
    | some label => [.word .label, .name label]
    | none => []

end Source

namespace OrderItem

def tokens (o : OrderItem) : List Token :=
  o.expr.tokens ++ (o.direction.map fun d => .word (.direction d)).toList

end OrderItem

namespace Select

/-- A clause after its word, if there is one. -/
def clause (w : Word) (e : Option Expr) : List Token :=
  match e with
  | some e => .word w :: e.tokens
  | none => []

/-- The clauses in the order of SQL: the limit stands before the offset. -/
def tokens (s : Select) : List Token :=
  .word .select ::
    ((if s.columns.isEmpty then [.word .star] else separated (s.columns.map Expr.tokens)) ++
    (match s.source with
      | some source => source.tokens
      | none => []) ++
    clause .condition s.condition ++
    (if s.order.isEmpty then [] else .word .order :: separated (s.order.map OrderItem.tokens)) ++
    clause .limit s.limit ++
    clause .offset s.offset)

end Select

end FilterQuery
