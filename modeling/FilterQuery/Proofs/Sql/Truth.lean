import FilterQuery.Draft.Call
import FilterQuery.Draft.Clause

/-!
# Truth of expressions

An expression is read in SQL's three truth values: AND and OR are the connectives of three-valued
logic, and every other expression is an atom whose truth is given.
-/
namespace FilterQuery

inductive Truth where
  | no
  | unknown
  | yes
  deriving DecidableEq, Repr

namespace Truth

/-- Two truth values under a connective: what decides the result wins over `unknown`. -/
def join : Connective → Truth → Truth → Truth
  | .and, yes, b => b
  | .and, no, _ => no
  | .and, unknown, no => no
  | .and, unknown, _ => unknown
  | .or, no, b => b
  | .or, yes, _ => yes
  | .or, unknown, yes => yes
  | .or, unknown, _ => unknown

/-- Several truth values under a connective, unless there are none. -/
def joinAll (c : Connective) : List Truth → Option Truth
  | [] => none
  | t :: ts => some (ts.foldl (join c) t)

end Truth

namespace Expr

def truth (v : Expr → Truth) : Expr → Truth
  | binary left (.combine c) right => Truth.join c (left.truth v) (right.truth v)
  | e => v e

def atoms : Expr → List Expr
  | binary left (.combine _) right => left.atoms ++ right.atoms
  | e => [e]

@[simp] theorem truth_join (v : Expr → Truth) (c : Connective) (a b : Expr) :
    (join c a b).truth v = Truth.join c (a.truth v) (b.truth v) := rfl

@[simp] theorem atoms_join (c : Connective) (a b : Expr) :
    (join c a b).atoms = a.atoms ++ b.atoms := rfl

theorem truth_foldl (v : Expr → Truth) (c : Connective) (e : Expr) (es : List Expr) :
    (es.foldl (join c) e).truth v = (es.map (truth v)).foldl (Truth.join c) (e.truth v) := by
  induction es generalizing e with
  | nil => rfl
  | cons x xs ih => rw [List.foldl_cons, ih, truth_join, List.map_cons, List.foldl_cons]

theorem atoms_foldl (c : Connective) (e : Expr) (es : List Expr) :
    (es.foldl (join c) e).atoms = e.atoms ++ es.flatMap atoms := by
  induction es generalizing e with
  | nil => simp
  | cons x xs ih => rw [List.foldl_cons, ih, atoms_join, List.flatMap_cons, List.append_assoc]

end Expr

namespace Test

/-- A test is an atom: no test is itself joined by a connective. -/
@[simp] theorem truth_expr (v : Expr → Truth) (t : Test) : t.expr.truth v = v t.expr := by
  cases t <;> rfl

@[simp] theorem atoms_expr (t : Test) : t.expr.atoms = [t.expr] := by
  cases t <;> rfl

end Test

theorem Clause.truth_joinAll (v : Expr → Truth) (c : Connective) (es : List Expr) :
    (Clause.joinAll c es).map (Expr.truth v) = Truth.joinAll c (es.map (Expr.truth v)) := by
  cases es with
  | nil => rfl
  | cons e es =>
    have h := Expr.truth_foldl v c e es
    simpa [Clause.joinAll, Truth.joinAll] using h

end FilterQuery
