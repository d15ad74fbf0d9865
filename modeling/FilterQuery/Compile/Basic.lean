import FilterQuery.Condition.Spec
import FilterQuery.Draft.Call

/-!
# Compiling specs to calls

Each group with children becomes a scope of its own connective, each predicate a test that is joined
by the connective of its group. What has no meaning in a query is noted and skipped.
-/
namespace FilterQuery

namespace Predicate

/-- The test that a predicate asks for, or the event of its being skipped. -/
def test? (p : Predicate) : Except Event Test :=
  match Comparison.ofOperator p.operator with
  | some c => .ok (.compare p.field c p.operand)
  | none =>
    match p.operator with
    | .oneOf =>
      match p.operand.items? with
      | some values => .ok (.oneOf p.field values)
      | none => .error (.noList p.field p.operand)
    | .between =>
      match p.operand.items? with
      | some (low :: high :: _) => .ok (.between p.field low high)
      | _ => .error (.noPair p.field p.operand)
    | .isNull => .ok (.isNull p.field false)
    | .isNotNull => .ok (.isNull p.field true)
    | _ => .error (.unrecognized p.field)

/-- The call of a predicate in a group of this connective. -/
def call (p : Predicate) (parent : Connective) : Call :=
  match p.test? with
  | .ok t => .test parent t
  | .error e => .note e

end Predicate

namespace Condition

mutual

/-- The call of a condition in a group of connective `parent`. -/
def call (parent : Connective) : Condition → Call
  | leaf p => p.call parent
  | group c [] => .note (.emptyGroup c)
  | group c (child :: children) => .scope c (calls c (child :: children))

/-- The calls of the children of a group. -/
def calls (parent : Connective) : List Condition → List Call
  | [] => []
  | c :: cs => call parent c :: calls parent cs

end

/-- The call of a whole condition. A predicate that stands alone is tested in an AND scope. -/
def rootCall : Condition → Call
  | leaf p => .scope .and [p.call .and]
  | c => c.call .and

end Condition

/-- The order and the page that a spec asks for. -/
structure Page where
  sorts : List SortKey := []
  offset : Option UInt64 := none
  limit : Option UInt64 := none
  deriving DecidableEq, Repr

namespace Page

/-- The calls of a page: its sorts by priority, its offset, its limit. -/
def calls (p : Page) : List Call :=
  p.sorts.map .orderBy ++ (p.offset.map .offset).toList ++ (p.limit.map .limit).toList

end Page

namespace Spec

/-- The page of a spec. A zero counts as not given, and there is no offset without a limit. -/
def page {ρ : Type} (s : Spec ρ) : Page :=
  let limit := positive s.limit
  ⟨s.sorts, limit.bind fun _ => positive s.offset, limit⟩

/-- The calls of a spec: its condition, then its page. -/
def calls (s : Spec Condition) : List Call :=
  (s.root.map Condition.rootCall).toList ++ s.page.calls

end Spec

end FilterQuery
