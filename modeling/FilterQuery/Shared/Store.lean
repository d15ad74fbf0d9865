import FilterQuery.Condition.Spec

/-!
# Shared nodes

A store holds nodes behind handles. Handles can be held several times, so a node may belong to
several groups and specs, and each sees every change of it. A handle stands for the tree that it
unfolds to, if no node lies below itself.
-/
namespace FilterQuery

/-- The place of a node in a store. -/
structure Handle where
  index : Nat
  deriving DecidableEq, Repr

/-- A node; a group holds the handles of its children. -/
inductive Node where
  | leaf (predicate : Predicate)
  | group (connective : Connective) (children : List Handle)

/-- Nodes by handle. No node is ever removed. -/
structure Store where
  nodes : Array Node := #[]

namespace Store

def get? (s : Store) (h : Handle) : Option Node := s.nodes[h.index]?

def size (s : Store) : Nat := s.nodes.size

/-- Puts a node behind a handle that the store already has. -/
def put (s : Store) (h : Handle) (n : Node) : Store := ⟨s.nodes.setIfInBounds h.index n⟩

/-- Puts a node behind a fresh handle. -/
def add (s : Store) (n : Node) : Handle × Store := (⟨s.nodes.size⟩, ⟨s.nodes.push n⟩)

/-- The tree below a handle, if it has at most `levels` levels. -/
def unfoldWithin (s : Store) : Nat → Handle → Option Condition
  | 0, _ => none
  | levels + 1, h =>
    match s.get? h with
    | some (.leaf p) => some (.leaf p)
    | some (.group c children) =>
      (children.mapM (unfoldWithin s levels)).map (.group c)
    | none => none

/-- The tree that a handle stands for. Without cycles no path is longer than the store is large. -/
def unfold (s : Store) (h : Handle) : Option Condition := s.unfoldWithin s.size h

theorem get?_put_self {s : Store} {h : Handle} {n m : Node} (hn : s.get? h = some n) :
    (s.put h m).get? h = some m := by
  have hlt : h.index < s.nodes.size := by
    unfold get? at hn
    exact (Array.getElem?_eq_some_iff.mp hn).1
  simp [get?, put, hlt]

theorem get?_put_of_ne {s : Store} {h k : Handle} {m : Node} (hk : k ≠ h) :
    (s.put h m).get? k = s.get? k := by
  have hi : h.index ≠ k.index := fun he => hk (by cases h; cases k; simp_all)
  simp [get?, put, hi]

@[simp] theorem size_put (s : Store) (h : Handle) (m : Node) : (s.put h m).size = s.size := by
  simp [size, put]

@[simp] theorem get?_add_self (s : Store) (n : Node) : (s.add n).2.get? (s.add n).1 = some n := by
  simp [get?, add]

/-- A fresh handle leaves what stands behind every other one. -/
theorem get?_add_of_ne {s : Store} {k : Handle} {n : Node} (hk : k ≠ (s.add n).1) :
    (s.add n).2.get? k = s.get? k := by
  have hi : k.index ≠ s.nodes.size := fun he => hk (by cases k; simp_all [add])
  simp [get?, add, Array.getElem?_push, hi]

@[simp] theorem size_add (s : Store) (n : Node) : (s.add n).2.size = s.size + 1 := by
  simp [size, add]

mutual

/-- Puts a tree behind fresh handles, each node behind one of its own. -/
def build : Condition → Store → Handle × Store
  | .leaf p, s => s.add (.leaf p)
  | .group c children, s =>
    let (handles, s) := buildAll children s
    s.add (.group c handles)

def buildAll : List Condition → Store → List Handle × Store
  | [], s => ([], s)
  | c :: cs, s =>
    let (h, s) := build c s
    let (hs, s) := buildAll cs s
    (h :: hs, s)

end

/-- Does something with each handle of a list in turn, on the store that the one before leaves. -/
def forEach (f : Handle → Store → Option (Handle × Store)) :
    List Handle → Store → Option (List Handle × Store)
  | [], s => some ([], s)
  | h :: hs, s => do
    let (k, s) ← f h s
    let (ks, s) ← forEach f hs s
    some (k :: ks, s)

/-- Copies the node behind a handle and all nodes below it, if there are at most `levels` levels. A
group is copied after its children, once for every path that leads to it. -/
def copyWithin : Nat → Handle → Store → Option (Handle × Store)
  | 0, _, _ => none
  | levels + 1, h, s =>
    match s.get? h with
    | some (.leaf p) => some (s.add (.leaf p))
    | some (.group c children) => do
      let (copies, s) ← forEach (copyWithin levels) children s
      some (s.add (.group c copies))
    | none => none

/-- A copy of the tree below a handle that shares no node with it. -/
def copy (s : Store) (h : Handle) : Option (Handle × Store) := copyWithin s.size h s

def group? (s : Store) (h : Handle) : Option (Connective × List Handle) :=
  match s.get? h with
  | some (.group c children) => some (c, children)
  | _ => none

/-- Changes the group behind a handle; a leaf cannot be changed so. -/
def modifyGroup (s : Store) (h : Handle) (f : Connective × List Handle → Connective × List Handle) :
    Option Store :=
  (s.group? h).map fun g => s.put h (.group (f g).1 (f g).2)

/-- Adds a child at the end of a group. -/
def pushChild (s : Store) (h child : Handle) : Option Store :=
  s.modifyGroup h fun (c, children) => (c, children ++ [child])

def setConnective (s : Store) (h : Handle) (c : Connective) : Option Store :=
  s.modifyGroup h fun (_, children) => (c, children)

def clear (s : Store) (h : Handle) : Option Store := s.modifyGroup h fun (c, _) => (c, [])

/-- Puts what stands behind `source` behind `h` too; its children are shared then. -/
def replace (s : Store) (h source : Handle) : Option Store := (s.get? source).map (s.put h)

/-- Compares the lists of children of two groups one by one. -/
def pairwise (eq : Handle → Handle → Bool) (as bs : List Handle) : Bool :=
  as.length == bs.length && (as.zip bs).all fun (a, b) => eq a b

/-- Compares the trees below two handles, at most `levels` deep. A handle equals itself without
being looked at. -/
def sameWithin (s : Store) : Nat → Handle → Handle → Bool
  | 0, a, b => a == b
  | levels + 1, a, b =>
    a == b ||
      match s.get? a, s.get? b with
      | some (.leaf p), some (.leaf q) => p.same q
      | some (.group c as), some (.group d bs) =>
        c == d && pairwise (sameWithin s levels) as bs
      | _, _ => false

/-- Compares the trees below two handles. -/
def same (s : Store) (a b : Handle) : Bool := s.sameWithin s.size a b

end Store

end FilterQuery
