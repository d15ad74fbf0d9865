import FilterQuery.Draft.Call
import FilterQuery.Draft.Clause
import FilterQuery.Sql.Render
import FilterQuery.Text.Blank

/-!
# Drafts

A draft is a query in the making. Its clauses are kept in frames, one for each open scope and one
for the query itself, and a scope that closes leaves at most one clause in the frame around it.
-/
namespace FilterQuery

/-- The clauses of an open scope, and how scopes within it are joined. -/
structure Frame where
  kind : Connective
  clauses : List Clause := []

/-- A query in the making. -/
structure Draft where
  table : TableName
  columns : List Expr := []
  /-- Innermost first; the last one belongs to the query itself. -/
  frames : List Frame := [⟨.and, []⟩]
  order : List SortKey := []
  limit : Option UInt64 := none
  offset : Option UInt64 := none

namespace Draft

/-- A query of all columns of a table. -/
def ofTable (table : String) : Draft := { table := TableName.parse table }

/-- The column of a name among blanks; a star means all columns. -/
def column (name : String) : Expr :=
  let name := Text.trim name
  if name = "*" then .wildcard else .named name

def withColumns (d : Draft) (names : List String) : Draft := { d with columns := names.map column }

/-- Adds a clause to the innermost frame, which is made if there is none. -/
def push (d : Draft) (connector : Connective) (e : Expr) : Draft :=
  match d.frames with
  | frame :: outer =>
    { d with frames := { frame with clauses := frame.clauses ++ [⟨connector, e⟩] } :: outer }
  | [] => { d with frames := [⟨.and, [⟨connector, e⟩]⟩] }

def openScope (d : Draft) (kind : Connective) : Draft := { d with frames := ⟨kind, []⟩ :: d.frames }

/-- Closes the innermost scope. Its chain becomes a clause of the scope around it, joined by the
kind of that scope; a scope without clauses is reported. -/
def closeScope (d : Draft) : Draft × List Event :=
  match d.frames with
  | [] => (d, [])
  | frame :: outer =>
    let connector := match outer with
      | around :: _ => around.kind
      | [] => .and
    let d := { d with frames := outer }
    match Clause.combine frame.clauses with
    | some e => (d.push connector e, [])
    | none => (d, [.emptyScope frame.kind])

/-- A clause joins the chain of the innermost frame. -/
theorem frames_push {d : Draft} {frame : Frame} {outer : List Frame}
    (h : d.frames = frame :: outer) (connector : Connective) (e : Expr) :
    (d.push connector e).frames =
      { frame with clauses := frame.clauses ++ [⟨connector, e⟩] } :: outer := by
  simp [push, h]

@[simp] theorem frames_openScope (d : Draft) (kind : Connective) :
    (d.openScope kind).frames = ⟨kind, []⟩ :: d.frames := rfl

mutual

def run (d : Draft) : Call → Draft × List Event
  | .test connector t => (d.push connector t.expr, [])
  | .scope kind body =>
    let (d, events) := (d.openScope kind).runAll body
    let (d, closing) := d.closeScope
    (d, events ++ closing)
  | .orderBy key => ({ d with order := d.order ++ [key] }, [])
  | .offset n => ({ d with offset := some n }, [])
  | .limit n => ({ d with limit := some n }, [])
  | .note e => (d, [e])

def runAll (d : Draft) : List Call → Draft × List Event
  | [] => (d, [])
  | c :: cs =>
    let (d, events) := d.run c
    let (d, others) := d.runAll cs
    (d, events ++ others)

end

/-- A count as a bound value, at most 2⁶³ - 1. -/
def count (n : UInt64) : Expr := .value (.int (Int64.ofNat (min n.toNat 0x7FFFFFFFFFFFFFFF)))

def orderItem (key : SortKey) : OrderItem := ⟨.named key.field, some key.direction⟩

/-- The query of a draft. The clauses of scopes that are still open are not in it. -/
def toSelect (d : Draft) : Select where
  columns := d.columns
  source := some ⟨d.table, none⟩
  condition := d.frames.getLast?.bind fun frame => Clause.combine frame.clauses
  order := d.order.map orderItem
  limit := d.limit.map count
  offset := d.offset.map count

/-- The text and the parameters of the query. -/
def render (d : Draft) (dialect : Dialect) : Sql.Output := d.toSelect.render dialect {}

end Draft

end FilterQuery
