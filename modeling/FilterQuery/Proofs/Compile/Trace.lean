import FilterQuery.Compile.Basic
import FilterQuery.Proofs.Draft.Steps

/-!
# The trace of a compilation

Whoever hears the calls of a spec one by one can tell the condition from them. Each scope is a group
and each test a predicate; what is skipped, and what a test does not tell, is lost. The sorts and
the page follow when the last scope is closed.
-/
namespace FilterQuery

namespace Comparison

/-- The operator that asks for a comparison. -/
def operator : Comparison → Operator
  | equal => .equal
  | notEqual => .notEqual
  | less => .less
  | greater => .greater
  | atMost => .atMost
  | atLeast => .atLeast
  | like => .like
  | notLike => .notLike

end Comparison

/-- The predicate that a test is made for. A null check comes without an operand. -/
def Test.predicate : Test → Predicate
  | compare field c operand => ⟨c.operator, field, operand⟩
  | oneOf field values => ⟨.oneOf, field, .list values⟩
  | between field low high => ⟨.between, field, .list [low, high]⟩
  | isNull field false => .unary .isNull field
  | isNull field true => .unary .isNotNull field

namespace Predicate

/-- What a test tells of a predicate, unless it is skipped: of a range the first two items, and of a
null check no operand. -/
def pruned? (p : Predicate) : Option Predicate :=
  match p.operator, p.operand with
  | .unrecognized, _ => none
  | .oneOf, .scalar _ => none
  | .between, .list (low :: high :: _) => some ⟨.between, p.field, .list [low, high]⟩
  | .between, _ => none
  | .isNull, _ => some (unary .isNull p.field)
  | .isNotNull, _ => some (unary .isNotNull p.field)
  | _, _ => some p

theorem pruned?_eq_test? (p : Predicate) : p.pruned? = p.test?.toOption.map Test.predicate := by
  obtain ⟨operator, field, operand⟩ := p
  cases operator with
  | oneOf => cases operand <;> rfl
  | between => rcases operand with s | (_ | ⟨low, _ | ⟨high, rest⟩⟩) <;> rfl
  | _ => rfl

end Predicate

namespace Condition

mutual

/-- A condition without its skipped predicates and its empty groups. A group whose children are all
gone is still there. -/
def pruned? : Condition → Option Condition
  | leaf p => p.pruned?.map leaf
  | group _ [] => none
  | group c (child :: children) => some (group c (prunedAll (child :: children)))

def prunedAll : List Condition → List Condition
  | [] => []
  | x :: xs => x.pruned?.toList ++ prunedAll xs

end

/-- A predicate that stands alone stands in an AND group. -/
def rooted : Condition → Condition
  | leaf p => group .and [leaf p]
  | x => x

theorem rootCall_eq_call_rooted (x : Condition) : x.rootCall = x.rooted.call .and := by
  cases x <;> rfl

end Condition

/-- The part of a condition that has been read. -/
structure Rebuilt where
  /-- What was read in the innermost open group, or outside of all groups. -/
  here : List Condition := []
  /-- The open groups, innermost first, with what was read before each. -/
  around : List (Connective × List Condition) := []

namespace Rebuilt

/-- Reads one step. A test is read in a group only, and only under the connective of that group. -/
def read (r : Rebuilt) : Step → Option Rebuilt
  | .opening c => some ⟨[], (c, r.here) :: r.around⟩
  | .closing =>
    match r.around with
    | (c, before) :: around => some ⟨before ++ [.group c r.here], around⟩
    | [] => none
  | .test connector t =>
    match r.around with
    | (c, _) :: _ =>
      if connector = c then some { r with here := r.here ++ [.leaf t.predicate] } else none
    | [] => none
  | .orderBy _ | .offset _ | .limit _ | .note _ => none

def readAll (r : Rebuilt) (steps : List Step) : Option Rebuilt := steps.foldlM read r

theorem readAll_cons (r : Rebuilt) (s : Step) (rest : List Step) :
    r.readAll (s :: rest) = (r.read s).bind (readAll · rest) := List.foldlM_cons

theorem readAll_append (r : Rebuilt) (ss ts : List Step) :
    r.readAll (ss ++ ts) = (r.readAll ss).bind (readAll · ts) := List.foldlM_append

theorem read_test (here before : List Condition) (around : List (Connective × List Condition))
    (c : Connective) (t : Test) :
    read ⟨here, (c, before) :: around⟩ (.test c t) =
      some ⟨here ++ [.leaf t.predicate], (c, before) :: around⟩ := if_pos rfl

end Rebuilt

namespace Call

/-- What is heard of a call. -/
def trace (c : Call) : List Step := c.steps.filter Step.isCall

def traceOfAll (cs : List Call) : List Step := (stepsOfAll cs).filter Step.isCall

@[simp] theorem trace_test (c : Connective) (t : Test) : (test c t).trace = [.test c t] := rfl

@[simp] theorem trace_note (e : Event) : (note e).trace = [] := rfl

theorem traceOfAll_cons (c : Call) (cs : List Call) :
    traceOfAll (c :: cs) = c.trace ++ traceOfAll cs := List.filter_append _ _

theorem traceOfAll_append (cs ds : List Call) :
    traceOfAll (cs ++ ds) = traceOfAll cs ++ traceOfAll ds := by
  rw [traceOfAll, stepsOfAll_append, List.filter_append, traceOfAll, traceOfAll]

theorem trace_scope (kind : Connective) (body : List Call) :
    (scope kind body).trace = .opening kind :: (traceOfAll body ++ [.closing]) := by
  rw [trace, steps, List.filter_cons_of_pos rfl, List.filter_append]
  rfl

end Call

namespace Rebuilt

/-- A scope is read as the group of what is read in it. -/
theorem readAll_scope {r : Rebuilt} {c : Connective} {body : List Call} {xs : List Condition}
    (hbody : readAll ⟨[], (c, r.here) :: r.around⟩ (Call.traceOfAll body) =
      some ⟨xs, (c, r.here) :: r.around⟩) :
    r.readAll (Call.scope c body).trace = some { r with here := r.here ++ [.group c xs] } := by
  rw [Call.trace_scope, readAll_cons, read, Option.bind_some, readAll_append, hbody,
    Option.bind_some, readAll_cons]
  rfl

end Rebuilt

namespace Condition

open Rebuilt (readAll readAll_append readAll_scope)

mutual

/-- The calls of a condition are read as the condition without what is skipped. -/
theorem readAll_call (c : Connective) (here before : List Condition)
    (around : List (Connective × List Condition)) (x : Condition) :
    readAll ⟨here, (c, before) :: around⟩ (x.call c).trace =
      some ⟨here ++ x.pruned?.toList, (c, before) :: around⟩ := by
  cases x with
  | leaf p =>
    rw [call, Predicate.call, pruned?, Predicate.pruned?_eq_test?]
    cases p.test? with
    | error e => simp [Rebuilt.readAll, Except.toOption]
    | ok t =>
      rw [Call.trace_test, Rebuilt.readAll_cons, Rebuilt.read_test]
      rfl
  | group b children =>
    cases children with
    | nil => simp [call, pruned?, Rebuilt.readAll]
    | cons child children =>
      have hbody := readAll_calls b [] here ((c, before) :: around) (child :: children)
      exact readAll_scope hbody

theorem readAll_calls (c : Connective) (here before : List Condition)
    (around : List (Connective × List Condition)) (xs : List Condition) :
    readAll ⟨here, (c, before) :: around⟩ (Call.traceOfAll (calls c xs)) =
      some ⟨here ++ prunedAll xs, (c, before) :: around⟩ := by
  cases xs with
  | nil => simp [calls, prunedAll, Call.traceOfAll, Call.stepsOfAll, Rebuilt.readAll]
  | cons x xs =>
    rw [calls, Call.traceOfAll_cons, readAll_append, readAll_call c here before around x,
      Option.bind_some, readAll_calls c _ before around xs, prunedAll, List.append_assoc]

end

/-- A whole condition is read outside of all groups. -/
theorem readAll_rootCall (x : Condition) :
    readAll {} x.rootCall.trace = some ⟨x.rooted.pruned?.toList, []⟩ := by
  rw [rootCall_eq_call_rooted]
  have hgroup : ∀ (c : Connective) (children : List Condition),
      readAll {} ((group c children).call .and).trace =
        some ⟨(group c children).pruned?.toList, []⟩ := by
    intro c children
    cases children with
    | nil => rfl
    | cons child children => exact readAll_scope (readAll_calls c [] [] [] (child :: children))
  cases x with
  | leaf p => exact hgroup .and [leaf p]
  | group c children => exact hgroup c children

end Condition

namespace Page

/-- The steps of a page: its sorts by priority, its offset, its limit. -/
def steps (p : Page) : List Step :=
  p.sorts.map .orderBy ++ (p.offset.map .offset).toList ++ (p.limit.map .limit).toList

theorem stepsOfAll_calls (p : Page) : Call.stepsOfAll p.calls = p.steps := by
  have hsorts : (p.sorts.map Call.orderBy).flatMap Call.steps = p.sorts.map Step.orderBy := by
    rw [List.flatMap_map]
    exact List.map_eq_flatMap.symm
  rw [calls, Call.stepsOfAll_eq_flatMap, List.flatMap_append, List.flatMap_append, hsorts, steps]
  cases p.offset <;> cases p.limit <;> rfl

theorem eq_of_mem_steps {p : Page} {s : Step} (h : s ∈ p.steps) :
    (∃ key, s = .orderBy key) ∨ (∃ n, s = .offset n) ∨ ∃ n, s = .limit n := by
  simp only [steps, List.mem_append, List.mem_map, Option.mem_toList, Option.map_eq_some_iff] at h
  rcases h with (⟨key, _, rfl⟩ | ⟨n, _, rfl⟩) | ⟨n, _, rfl⟩
  · exact Or.inl ⟨key, rfl⟩
  · exact Or.inr (Or.inl ⟨n, rfl⟩)
  · exact Or.inr (Or.inr ⟨n, rfl⟩)

/-- Nothing in a page is a note. -/
theorem traceOfAll_calls (p : Page) : Call.traceOfAll p.calls = p.steps := by
  rw [Call.traceOfAll, stepsOfAll_calls, List.filter_eq_self]
  intro s hs
  rcases eq_of_mem_steps hs with ⟨key, rfl⟩ | ⟨n, rfl⟩ | ⟨n, rfl⟩ <;> rfl

end Page

namespace Spec

/-- What is heard while a spec is compiled. -/
def trace (s : Spec Condition) : List Step := Call.traceOfAll s.calls

/-- The trace of a spec is its condition, without what is skipped and in scopes that are all closed
at the end, and after that the sorts, the offset and the limit of its page. -/
theorem trace_reads_back (s : Spec Condition) :
    ∃ tree, s.trace = tree ++ (s.sorts.map .orderBy ++ (s.page.offset.map .offset).toList ++
        (s.page.limit.map .limit).toList) ∧
      Rebuilt.readAll {} tree =
        some ⟨(s.root.bind fun x => x.rooted.pruned?).toList, []⟩ := by
  refine ⟨Call.traceOfAll (s.root.map Condition.rootCall).toList, ?_, ?_⟩
  · rw [trace, calls, Call.traceOfAll_append, Page.traceOfAll_calls]
    rfl
  · cases s.root with
    | none => rfl
    | some x =>
      have hx := x.readAll_rootCall
      rw [Option.map_some, Option.toList_some, Call.traceOfAll_cons, Rebuilt.readAll_append, hx,
        Option.bind_some]
      rfl

end Spec

end FilterQuery
