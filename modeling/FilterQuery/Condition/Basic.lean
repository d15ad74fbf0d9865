import FilterQuery.Condition.Operator
import FilterQuery.Condition.Operand

/-!
# Conditions

A condition is a tree: predicates on fields under groups that join their children by AND or by OR.
-/
namespace FilterQuery

/-- One test of a field against an operand. -/
structure Predicate where
  operator : Operator
  field : String
  operand : Operand
  deriving Repr

namespace Predicate

/-- A predicate whose operator reads no operand. -/
def unary (operator : Operator) (field : String) : Predicate := ⟨operator, field, .scalar .null⟩

/-- The same operator and field, and equal operands. -/
def same (p q : Predicate) : Bool :=
  p.operator == q.operator && p.field == q.field && p.operand.same q.operand

end Predicate

/-- A predicate, or several conditions under a connective. A group may be empty. -/
inductive Condition where
  | leaf (predicate : Predicate)
  | group (connective : Connective) (children : List Condition)

namespace Condition

mutual

def depth : Condition → Nat
  | leaf _ => 1
  | group _ children => 1 + depths children

/-- The number of levels of the deepest of several conditions. -/
def depths : List Condition → Nat
  | [] => 0
  | c :: cs => max c.depth (depths cs)

end

mutual

def same : Condition → Condition → Bool
  | leaf p, leaf q => p.same q
  | group c cs, group d ds => c == d && sames cs ds
  | _, _ => false

def sames : List Condition → List Condition → Bool
  | [], [] => true
  | c :: cs, d :: ds => c.same d && sames cs ds
  | _, _ => false

end

/-- What keeps a condition from being built. -/
inductive Fault where
  | emptyGroup
  | missingKey (key : String)
  deriving DecidableEq, Repr

def Fault.message : Fault → String
  | emptyGroup => "Condition group must contain at least one child"
  | missingKey key => "Leaf condition is missing required key `" ++ key ++ "`"

/-- A group of at least one child. -/
def group? {α β : Type} (make : Connective → List α → β) (c : Connective) (children : List α) :
    Except Fault β :=
  if children.isEmpty then .error .emptyGroup else .ok (make c children)

end Condition

end FilterQuery
