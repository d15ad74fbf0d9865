import FilterQuery.Compile.Selection
import FilterQuery.Proofs.Compile.Meaning

/-!
# The query of a spec

Calls set the page of a draft in the order in which they are made, inside scopes as outside, and
leave its table and its columns alone. With the condition known, this gives the whole query that a
spec is compiled to.
-/
namespace FilterQuery

namespace Call

mutual

/-- The page after a call: a sort is added, an offset or a limit replaces the one before. -/
def page (p : Page) : Call → Page
  | scope _ body => pageOfAll p body
  | orderBy key => { p with sorts := p.sorts ++ [key] }
  | offset n => { p with offset := some n }
  | limit n => { p with limit := some n }
  | test _ _ | note _ => p

def pageOfAll (p : Page) : List Call → Page
  | [] => p
  | c :: cs => pageOfAll (page p c) cs

end

theorem pageOfAll_append (p : Page) (cs ds : List Call) :
    pageOfAll p (cs ++ ds) = pageOfAll (pageOfAll p cs) ds := by
  induction cs generalizing p with
  | nil => rfl
  | cons c cs ih => rw [List.cons_append, pageOfAll, pageOfAll, ih]

end Call

namespace Draft

def page (d : Draft) : Page := ⟨d.order, d.offset, d.limit⟩

/-- A draft with another page, and possibly other frames. -/
structure Settled (before : Draft) (p : Page) (after : Draft) : Prop where
  table : after.table = before.table
  columns : after.columns = before.columns
  page : after.page = p

theorem settled_push (d : Draft) (connector : Connective) (e : Expr) :
    Settled d d.page (d.push connector e) := by
  unfold push
  cases d.frames with
  | nil => exact ⟨rfl, rfl, rfl⟩
  | cons frame outer => exact ⟨rfl, rfl, rfl⟩

theorem settled_closeScope (d : Draft) : Settled d d.page d.closeScope.1 := by
  cases hframes : d.frames with
  | nil =>
    simp only [closeScope, hframes]
    exact ⟨rfl, rfl, rfl⟩
  | cons frame outer =>
    simp only [closeScope, hframes]
    cases Clause.combine frame.clauses with
    | none => exact ⟨rfl, rfl, rfl⟩
    | some e =>
      exact ⟨(settled_push _ _ e).table, (settled_push _ _ e).columns, (settled_push _ _ e).page⟩

mutual

theorem settled_run (d : Draft) (c : Call) : Settled d (c.page d.page) (d.run c).1 := by
  cases c with
  | test connector t => exact settled_push d connector t.expr
  | scope kind body =>
    have hbody := settled_runAll (d.openScope kind) body
    have hclose := settled_closeScope ((d.openScope kind).runAll body).1
    exact ⟨hclose.table.trans hbody.table, hclose.columns.trans hbody.columns,
      hclose.page.trans hbody.page⟩
  | orderBy _ | offset _ | limit _ | note _ => exact ⟨rfl, rfl, rfl⟩

theorem settled_runAll (d : Draft) (cs : List Call) :
    Settled d (Call.pageOfAll d.page cs) (d.runAll cs).1 := by
  cases cs with
  | nil => exact ⟨rfl, rfl, rfl⟩
  | cons c cs =>
    have hc := settled_run d c
    have hcs := settled_runAll (d.run c).1 cs
    rw [hc.page] at hcs
    exact ⟨hcs.table.trans hc.table, hcs.columns.trans hc.columns, hcs.page⟩

end

end Draft

namespace Condition

mutual

theorem page_call (p : Page) (parent : Connective) (x : Condition) :
    (x.call parent).page p = p := by
  cases x with
  | leaf predicate =>
    rw [call, Predicate.call]
    cases predicate.test? <;> rfl
  | group c children =>
    cases children with
    | nil => rfl
    | cons child children => exact page_calls p c (child :: children)

theorem page_calls (p : Page) (parent : Connective) (xs : List Condition) :
    Call.pageOfAll p (calls parent xs) = p := by
  cases xs with
  | nil => rfl
  | cons x xs => rw [calls, Call.pageOfAll, page_call p parent x, page_calls p parent xs]

end

theorem page_rootCall (p : Page) (x : Condition) : x.rootCall.page p = p := by
  cases x with
  | leaf predicate => exact page_calls p .and [.leaf predicate]
  | group c children => exact page_call p .and (.group c children)

end Condition

/-- The calls of a page add its sorts and set what it sets. -/
theorem Page.pageOfAll_calls (p q : Page) :
    Call.pageOfAll q p.calls = ⟨q.sorts ++ p.sorts, p.offset.or q.offset, p.limit.or q.limit⟩ := by
  have hsorts : ∀ (sorts : List SortKey) (q : Page),
      Call.pageOfAll q (sorts.map .orderBy) = { q with sorts := q.sorts ++ sorts } := by
    intro sorts
    induction sorts with
    | nil => intro q; simp [Call.pageOfAll]
    | cons key sorts ih => intro q; simp [Call.pageOfAll, Call.page, ih]
  rw [calls, Call.pageOfAll_append, Call.pageOfAll_append, hsorts]
  cases p.offset <;> cases p.limit <;> rfl

namespace Spec

/-- A spec adds its sorts to a page and sets what its own page sets. -/
theorem pageOfAll_calls (p : Page) (s : Spec Condition) :
    Call.pageOfAll p s.calls =
      ⟨p.sorts ++ s.sorts, s.page.offset.or p.offset, s.page.limit.or p.limit⟩ := by
  have hroot : Call.pageOfAll p (s.root.map Condition.rootCall).toList = p := by
    cases s.root with
    | none => rfl
    | some x => exact Condition.page_rootCall p x
  rw [calls, Call.pageOfAll_append, hroot, Page.pageOfAll_calls]
  rfl

/-- The query of a spec on the columns of a table. -/
def query (table : String) (columns : List String) (s : Spec Condition) : Select where
  columns := columns.map Draft.column
  source := some ⟨TableName.parse table, none⟩
  condition := s.root.bind Condition.expr?
  order := s.sorts.map Draft.orderItem
  limit := s.page.limit.map Draft.count
  offset := s.page.offset.map Draft.count

theorem toSelect_calls (table : String) (columns : List String) (s : Spec Condition) :
    (((Draft.ofTable table).withColumns columns).runAll s.calls).1.toSelect =
      s.query table columns := by
  have hcondition := condition_calls table columns s
  obtain ⟨htable, hcolumns, hpage⟩ :=
    Draft.settled_runAll ((Draft.ofTable table).withColumns columns) s.calls
  have hfresh : ((Draft.ofTable table).withColumns columns).page = {} := rfl
  rw [hfresh, pageOfAll_calls] at hpage
  generalize (((Draft.ofTable table).withColumns columns).runAll s.calls).1 = d at *
  have horder : d.order = s.sorts := congrArg Page.sorts hpage
  have hoffset : d.offset = s.page.offset := (congrArg Page.offset hpage).trans Option.or_none
  have hlimit : d.limit = s.page.limit := (congrArg Page.limit hpage).trans Option.or_none
  rw [query, ← hcondition]
  simp only [Draft.toSelect, htable, hcolumns, horder, hoffset, hlimit]
  rfl

end Spec

namespace Selection

/-- Without a spec the selection is that of a spec in which nothing is set. -/
theorem make_eq_render (dialect : Dialect) (table : String) (columns : List String)
    (spec : Option (Spec Condition)) :
    let output := ((spec.getD {}).query table columns).render dialect {}
    (make dialect table columns spec).sql = output.sql ∧
      (make dialect table columns spec).params = output.params := by
  intro output
  have houtput : output =
      (((Draft.ofTable table).withColumns columns).runAll (spec.getD {}).calls).1.render dialect := by
    rw [Draft.render, Spec.toSelect_calls]
  rw [houtput]
  cases spec with
  | none => exact ⟨rfl, rfl⟩
  | some s => exact ⟨rfl, rfl⟩

/-- The text of a selection is its query, written with no parameters before it. -/
theorem toList_sql_make (dialect : Dialect) (table : String) (columns : List String)
    (spec : Option (Spec Condition)) :
    (make dialect table columns spec).sql.toList =
      Sql.write dialect 0 ((spec.getD {}).query table columns).tokens := by
  rw [(make_eq_render dialect table columns spec).1, Sql.Output.sql, String.toList_ofList]
  rfl

/-- The parameters of a selection are what its query binds. -/
theorem params_make (dialect : Dialect) (table : String) (columns : List String)
    (spec : Option (Spec Condition)) :
    (make dialect table columns spec).params =
      Sql.boundValues ((spec.getD {}).query table columns).tokens :=
  (make_eq_render dialect table columns spec).2

/-- The root and the page of a spec settle its selection. -/
theorem make_congr (dialect : Dialect) (table : String) (columns : List String)
    {s t : Spec Condition} (hroot : s.root = t.root) (hpage : s.page = t.page) :
    make dialect table columns (some s) = make dialect table columns (some t) := by
  have hcalls : s.calls = t.calls := by rw [Spec.calls, Spec.calls, hroot, hpage]
  rw [make, make, hcalls]

end Selection

end FilterQuery
