import FilterQuery.Shared.Store

/-!
# Specs that share nodes

A spec on a store holds a handle for its root. A copy of the spec itself shares all nodes; a deep
copy has nodes of its own.
-/
namespace FilterQuery

/-- A spec whose root is a node of a store. -/
abbrev SharedSpec := Spec Handle

namespace SharedSpec

/-- The spec with the tree that its root stands for. -/
def unfold (spec : SharedSpec) (s : Store) : Option (Spec Condition) :=
  match spec.root with
  | none => some (spec.withRoot none)
  | some h => (s.unfold h).map fun c => spec.withRoot (some c)

/-- Puts the tree of a spec into a store. -/
def ofSpec (spec : Spec Condition) (s : Store) : SharedSpec × Store :=
  match spec.root with
  | none => (spec.withRoot none, s)
  | some c =>
    let (h, s) := s.build c
    (spec.withRoot (some h), s)

/-- A spec on a copy of the tree. -/
def deepCopy (spec : SharedSpec) (s : Store) : Option (SharedSpec × Store) :=
  match spec.root with
  | none => some (spec, s)
  | some h => (s.copy h).map fun (h, s) => (spec.withRoot (some h), s)

/-- Joins one more condition to the root, in a group of its own. No node that was there before is
changed. -/
def addCondition (spec : SharedSpec) (s : Store) (node : Handle) (c : Connective) :
    SharedSpec × Store :=
  let (h, s) := s.add (.group c (Spec.joined spec.root node))
  (spec.withRoot (some h), s)

/-- Compares two specs with the trees that they stand for. -/
def same (a b : SharedSpec) (s : Store) : Bool := Spec.same s.same a b

end SharedSpec

end FilterQuery
