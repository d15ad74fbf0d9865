import FilterQuery.Draft.Basic
import FilterQuery.Proofs.Sql.Truth

/-!
# The clauses of a draft

What a chain of clauses combines to, and which clauses calls leave in the innermost frame. A call
changes that frame only, whatever frames lie around it.
-/
namespace FilterQuery

namespace Clause

/-- The expression of the chain that `e` begins. -/
def chain (e : Expr) (rest : List Clause) : Expr := (combine (⟨.and, e⟩ :: rest)).getD e

/-- A run begins at every clause that is joined by OR. -/
theorem runs_append_or (c : Clause) (cs : List Clause) (e : Expr) (more : List Clause) :
    runs (c :: cs ++ ⟨.or, e⟩ :: more) = runs (c :: cs) ++ runs (⟨.or, e⟩ :: more) := by
  induction cs generalizing c with
  | nil => simp [runs]
  | cons next rest ih =>
    have hnext := ih next
    rw [List.cons_append] at hnext
    obtain ⟨run, others, hr⟩ := List.exists_cons_of_ne_nil (runs_ne_nil next rest)
    rw [hr] at hnext
    cases hc : next.connector <;> simp [runs, hc, hnext, hr]

theorem runs_of_and (c : Clause) {cs : List Clause} (h : ∀ x ∈ cs, x.connector = .and) :
    runs (c :: cs) = [c.expr :: cs.map expr] := by
  induction cs generalizing c with
  | nil => rfl
  | cons next rest ih =>
    have hn : next.connector = .and := h next List.mem_cons_self
    have hr := ih next fun x hx => h x (List.mem_cons_of_mem _ hx)
    simp [runs, hn, hr]

theorem runs_of_or (c : Clause) {cs : List Clause} (h : ∀ x ∈ cs, x.connector = .or) :
    runs (c :: cs) = [c.expr] :: cs.map fun x => [x.expr] := by
  induction cs generalizing c with
  | nil => rfl
  | cons next rest ih =>
    have hn : next.connector = .or := h next List.mem_cons_self
    have hr := ih next fun x hx => h x (List.mem_cons_of_mem _ hx)
    simp [runs, hn, hr]

/-- Cutting a chain into runs keeps its expressions and their order. -/
theorem flatten_runs (cs : List Clause) : (runs cs).flatten = cs.map expr := by
  fun_induction runs cs with
  | case1 => rfl
  | case2 c => rfl
  | case3 c next rest first others hr hc ih => rw [hr] at ih; simpa using ih
  | case4 c next rest others ih => simpa using ih

/-- The connector of the first clause is ignored. -/
theorem combine_cons (c : Connective) (e : Expr) (rest : List Clause) :
    combine (⟨c, e⟩ :: rest) = some (chain e rest) := by
  have hfirst : combine (⟨c, e⟩ :: rest) = combine (⟨.and, e⟩ :: rest) := by
    cases rest <;> rfl
  have hsome : combine (⟨.and, e⟩ :: rest) ≠ none := by
    rw [Ne, combine_eq_none_iff]
    simp
  obtain ⟨joined, hj⟩ := Option.ne_none_iff_exists'.mp hsome
  rw [hfirst, chain, hj, Option.getD_some]

theorem chain_of_and (e : Expr) {rest : List Clause} (h : ∀ x ∈ rest, x.connector = .and) :
    chain e rest = (rest.map expr).foldl (Expr.join .and) e := by
  simp [chain, combine, runs_of_and _ h, joinAll]

/-- The last OR of a chain is the outermost operation. -/
theorem chain_append_or (e g : Expr) (rest : List Clause) {more : List Clause}
    (h : ∀ x ∈ more, x.connector = .and) :
    chain e (rest ++ ⟨.or, g⟩ :: more) = Expr.join .or (chain e rest) (chain g more) := by
  have hruns : runs (⟨.and, e⟩ :: (rest ++ ⟨.or, g⟩ :: more)) =
      runs (⟨.and, e⟩ :: rest) ++ [g :: more.map expr] := by
    rw [← List.cons_append, runs_append_or, runs_of_and _ h]
  obtain ⟨run, others, hr⟩ := List.exists_cons_of_ne_nil (runs_ne_nil ⟨.and, e⟩ rest)
  have hrun : run ≠ [] := ne_nil_of_mem_runs (by rw [hr]; exact List.mem_cons_self)
  obtain ⟨x, xs, rfl⟩ := List.exists_cons_of_ne_nil hrun
  rw [chain_of_and g h]
  simp [chain, combine, hruns, hr, joinAll]

/-- Under one connective throughout, a chain is joined from the left. -/
theorem combine_uniform (c : Connective) {cs : List Clause} (h : ∀ x ∈ cs, x.connector = c) :
    combine cs = joinAll c (cs.map expr) := by
  cases cs with
  | nil => rfl
  | cons first rest =>
    have hrest : ∀ x ∈ rest, x.connector = c := fun x hx => h x (List.mem_cons_of_mem _ hx)
    cases c with
    | and => simp [combine, runs_of_and first hrest, joinAll]
    | or =>
      have hsingle : (rest.map fun x => [x.expr]).filterMap (joinAll .and) = rest.map expr := by
        rw [List.filterMap_map]
        exact congrFun (List.filterMap_eq_map (f := expr)) rest
      simp [combine, runs_of_or first hrest, joinAll, hsingle]

/-- Expressions that are all joined by one connective. -/
theorem combine_map_mk (c : Connective) (es : List Expr) :
    combine (es.map (Clause.mk c)) = joinAll c es := by
  have h : ∀ x ∈ es.map (Clause.mk c), x.connector = c := by
    intro x hx
    obtain ⟨e, _, rfl⟩ := List.mem_map.mp hx
    rfl
  rw [combine_uniform c h, List.map_map]
  exact congrArg (joinAll c) (List.map_id es)

theorem atoms_joinAll (c : Connective) (es : List Expr) :
    ((joinAll c es).map Expr.atoms).getD [] = es.flatMap Expr.atoms := by
  cases es with
  | nil => rfl
  | cons e es => simp [joinAll, Expr.atoms_foldl]

/-- The atoms of a chain are those of its clauses, in order. -/
theorem atoms_combine (cs : List Clause) :
    ((combine cs).map Expr.atoms).getD [] = cs.flatMap fun c => c.expr.atoms := by
  have hruns : ∀ rs : List (List Expr),
      (rs.filterMap (joinAll .and)).flatMap Expr.atoms = rs.flatten.flatMap Expr.atoms := by
    intro rs
    induction rs with
    | nil => rfl
    | cons r rs ih =>
      cases r with
      | nil => rw [List.filterMap_cons_none rfl, ih, List.flatten_cons, List.nil_append]
      | cons e es => simp [joinAll, Expr.atoms_foldl, ih]
  rw [combine, atoms_joinAll, hruns, flatten_runs, List.flatMap_map]

end Clause

namespace Frame

def add (f : Frame) (cs : List Clause) : Frame := { f with clauses := f.clauses ++ cs }

@[simp] theorem kind_add (f : Frame) (cs : List Clause) : (f.add cs).kind = f.kind := rfl

@[simp] theorem add_nil (f : Frame) : f.add [] = f := by simp [add]

@[simp] theorem add_add (f : Frame) (cs ds : List Clause) : (f.add cs).add ds = f.add (cs ++ ds) := by
  simp [add]

end Frame

namespace Call

mutual

/-- The clauses that a call leaves in a frame of kind `kind`. A scope leaves the chain of its calls
as one clause, or none. -/
def clauses (kind : Connective) : Call → List Clause
  | test connector t => [⟨connector, t.expr⟩]
  | scope inner body => ((Clause.combine (clausesOfAll inner body)).map (Clause.mk kind)).toList
  | orderBy _ | offset _ | limit _ | note _ => []

def clausesOfAll (kind : Connective) : List Call → List Clause
  | [] => []
  | c :: cs => clauses kind c ++ clausesOfAll kind cs

end

end Call

namespace Draft

/-- A scope that closes hands its chain to the frame around it, joined by the kind of that frame. -/
theorem frames_closeScope {d : Draft} {frame around : Frame} {outer : List Frame}
    (h : d.frames = frame :: around :: outer) :
    d.closeScope.1.frames =
      around.add ((Clause.combine frame.clauses).map (Clause.mk around.kind)).toList :: outer := by
  simp only [closeScope, h]
  cases Clause.combine frame.clauses with
  | none => simp
  | some e => simp [push, Frame.add]

mutual

/-- A call adds its clauses to the innermost frame and leaves the frames around it alone. -/
theorem frames_run {d : Draft} {frame : Frame} {outer : List Frame}
    (h : d.frames = frame :: outer) (c : Call) :
    (d.run c).1.frames = frame.add (c.clauses frame.kind) :: outer := by
  cases c with
  | test connector t => exact frames_push h connector t.expr
  | scope kind body =>
    have hbody : ((d.openScope kind).runAll body).1.frames =
        Frame.add ⟨kind, []⟩ (Call.clausesOfAll kind body) :: d.frames :=
      frames_runAll (frames_openScope d kind) body
    rw [h] at hbody
    have hclose := frames_closeScope hbody
    simpa [run, Call.clauses, Frame.add] using hclose
  | orderBy _ | offset _ | limit _ | note _ => simpa [run, Call.clauses] using h

theorem frames_runAll {d : Draft} {frame : Frame} {outer : List Frame}
    (h : d.frames = frame :: outer) (cs : List Call) :
    (d.runAll cs).1.frames = frame.add (Call.clausesOfAll frame.kind cs) :: outer := by
  cases cs with
  | nil => simpa [runAll, Call.clausesOfAll] using h
  | cons c cs =>
    have hrest := frames_runAll (frames_run h c) cs
    simpa [runAll, Call.clausesOfAll] using hrest

end

/-- The query of a fresh draft has the chain of all clauses as its condition. -/
theorem condition_runAll (table : String) (columns : List String) (calls : List Call) :
    (((ofTable table).withColumns columns).runAll calls).1.toSelect.condition =
      Clause.combine (Call.clausesOfAll .and calls) := by
  have h : ((ofTable table).withColumns columns).frames = [⟨.and, []⟩] := rfl
  simp [toSelect, frames_runAll h calls, Frame.add]

end Draft

end FilterQuery
