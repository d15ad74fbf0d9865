import FilterQuery.Condition.Basic

/-!
# Specs

A spec is a condition with sorting and paging. It is generic in what stands for the condition, so
the same operations serve a spec that owns its tree and one that shares nodes of a store.
-/
namespace FilterQuery

/-- One key of the order, by priority. -/
structure SortKey where
  field : String
  direction : Direction
  deriving DecidableEq, Repr

/-- A condition with a root of type `ρ`, the order of the result and the page to take of it. -/
structure Spec (ρ : Type) where
  root : Option ρ := none
  sorts : List SortKey := []
  offset : Option UInt64 := none
  limit : Option UInt64 := none

namespace Spec

variable {ρ σ : Type}

/-- A count that is above zero; zero counts as not given. -/
def positive (n : Option UInt64) : Option UInt64 := n.filter (0 < ·)

/-- A spec from its parts. There is a sort only if both its field and its direction are given. -/
def make (root : Option ρ) (offset limit : Option UInt64) (field : Option String)
    (direction : Option Direction) : Spec ρ :=
  let sorts := match field, direction with
    | some field, some direction => [⟨field, direction⟩]
    | _, _ => []
  ⟨root, sorts, positive offset, positive limit⟩

/-- The spec with a sort of lowest priority more. -/
def addSort (s : Spec ρ) (key : SortKey) : Spec ρ := { s with sorts := s.sorts ++ [key] }

def setSort (s : Spec ρ) (key : SortKey) : Spec ρ := { s with sorts := [key] }

def clearSort (s : Spec ρ) : Spec ρ := { s with sorts := [] }

/-- The spec with this offset, zero included. -/
def setOffset (s : Spec ρ) (n : Option UInt64) : Spec ρ := { s with offset := n }

/-- The spec with this limit, zero included. -/
def setLimit (s : Spec ρ) (n : Option UInt64) : Spec ρ := { s with limit := n }

def withRoot (s : Spec ρ) (root : Option σ) : Spec σ := ⟨root, s.sorts, s.offset, s.limit⟩

/-- The same parts, where `sameRoot` compares roots. -/
def same (sameRoot : ρ → ρ → Bool) (s t : Spec ρ) : Bool :=
  let roots := match s.root, t.root with
    | some a, some b => sameRoot a b
    | none, none => true
    | _, _ => false
  roots && s.sorts == t.sorts && s.offset == t.offset && s.limit == t.limit

/-- The group that joins a new condition to the old root; it stands alone if there was none. -/
def joined (root : Option ρ) (node : ρ) : List ρ := root.toList ++ [node]

/-- The spec whose root joins the old one, if any, with one more condition. -/
def addCondition (s : Spec Condition) (node : Condition) (c : Connective) : Spec Condition :=
  s.withRoot (some (.group c (joined s.root node)))

end Spec

end FilterQuery
