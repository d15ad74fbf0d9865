import FilterQuery.Compile.Selection
import FilterQuery.Encode.Spec
import FilterQuery.Shared.Spec

/-!
# Walks over shared nodes

The depth, the document and the query of a handle are gathered by walks that read each node when
they reach it. A node that is reached on several paths is read on each of them.
-/
namespace FilterQuery

namespace Store

variable {α : Type}

/-- What a walk below a handle gives, if there are at most `levels` levels: `leaf` of a predicate,
and `group` of what the children of a group give. -/
def walkWithin (s : Store) (leaf : Predicate → α) (group : Connective → List α → α) :
    Nat → Handle → Option α
  | 0, _ => none
  | levels + 1, h =>
    match s.get? h with
    | some (.leaf p) => some (leaf p)
    | some (.group c children) =>
      (children.mapM (walkWithin s leaf group levels)).map (group c)
    | none => none

/-- What a walk below a handle gives. -/
def walk (s : Store) (leaf : Predicate → α) (group : Connective → List α → α) (h : Handle) :
    Option α :=
  s.walkWithin leaf group s.size h

/-- The number of levels below a handle, its own included. -/
def depth (s : Store) (h : Handle) : Option Nat :=
  s.walk (fun _ => 1) (fun _ depths => 1 + depths.foldr max 0) h

def toJson (s : Store) (h : Handle) : Option Json :=
  s.walk Predicate.toJson
    (fun c children => .ofMembers [("logic", c.toJson), ("children", .array children)]) h

/-- The call of a group, from the calls of its children in a group of any connective. -/
def groupCall (c : Connective) (children : List (Connective → Call)) : Connective → Call := fun _ =>
  match children with
  | [] => .note (.emptyGroup c)
  | _ :: _ => .scope c (children.map (· c))

/-- The call of a whole tree. A predicate that stands alone is tested in an AND scope. -/
def rootCall (s : Store) (h : Handle) : Option Call :=
  match s.get? h with
  | some (.leaf p) => some (.scope .and [p.call .and])
  | _ => (s.walk Predicate.call groupCall h).map (· .and)

end Store

namespace SharedSpec

/-- The calls of a spec: its tree, then its page. -/
def calls (spec : SharedSpec) (s : Store) : Option (List Call) :=
  match spec.root with
  | none => some spec.page.calls
  | some h => (s.rootCall h).map fun call => call :: spec.page.calls

/-- The selection of a spec. -/
def select (dialect : Dialect) (table : String) (columns : List String) (spec : SharedSpec)
    (s : Store) : Option Selection :=
  (spec.calls s).map (Selection.ofCalls dialect table columns)

end SharedSpec

end FilterQuery
