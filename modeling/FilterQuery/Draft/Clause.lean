import FilterQuery.Sql.Select

/-!
# Chains of clauses

The clauses of a scope form a chain in which each clause but the first is joined to the one before
it. AND binds tighter than OR: the chain is an OR of runs, and a run is an AND of clauses.
-/
namespace FilterQuery

/-- An expression and how it is joined to the clause before it. -/
structure Clause where
  connector : Connective
  expr : Expr

namespace Clause

/-- The maximal runs of clauses joined by AND. The connector of the first clause is ignored. -/
def runs : List Clause → List (List Expr)
  | [] => []
  | [c] => [[c.expr]]
  | c :: next :: rest =>
    match next.connector, runs (next :: rest) with
    | .and, run :: others => (c.expr :: run) :: others
    | _, others => [c.expr] :: others

/-- Expressions joined from the left, unless there are none. -/
def joinAll (c : Connective) : List Expr → Option Expr
  | [] => none
  | e :: es => some (es.foldl (Expr.join c) e)

/-- The expression of a chain, unless it is empty. -/
def combine (clauses : List Clause) : Option Expr :=
  joinAll .or ((runs clauses).filterMap (joinAll .and))

@[simp] theorem combine_nil : combine [] = none := rfl

theorem runs_ne_nil (c : Clause) (cs : List Clause) : runs (c :: cs) ≠ [] := by
  cases cs with
  | nil => simp [runs]
  | cons next rest =>
    simp only [runs]
    split <;> simp

/-- A run has at least one clause. -/
theorem ne_nil_of_mem_runs {cs : List Clause} {run : List Expr} (h : run ∈ runs cs) :
    run ≠ [] := by
  fun_induction runs cs with
  | case1 => simp at h
  | case2 c => simp_all
  | case3 c next rest first others hr hc ih =>
    rcases List.mem_cons.mp h with rfl | hm
    · simp
    · exact ih (by rw [hr]; exact List.mem_cons_of_mem _ hm)
  | case4 c next rest others ih =>
    rcases List.mem_cons.mp h with rfl | hm
    · simp
    · exact ih hm

/-- A chain leaves an expression unless it is empty. -/
theorem combine_eq_none_iff {cs : List Clause} : combine cs = none ↔ cs = [] := by
  cases cs with
  | nil => simp
  | cons c cs =>
    simp only [reduceCtorEq, iff_false]
    obtain ⟨run, others, hr⟩ := List.exists_cons_of_ne_nil (runs_ne_nil c cs)
    have hrun : run ≠ [] := ne_nil_of_mem_runs (by rw [hr]; exact List.mem_cons_self)
    obtain ⟨e, es, rfl⟩ := List.exists_cons_of_ne_nil hrun
    simp [combine, hr, joinAll]

end Clause

end FilterQuery
