import FilterQuery.Compile.Basic
import FilterQuery.Proofs.Draft.Clauses

/-!
# The meaning of a compiled condition

A condition has a truth value of its own, read off the tree. The condition of the query that the
tree compiles to is true exactly as the tree is, and it is absent exactly if every predicate of the
tree is skipped.
-/
namespace FilterQuery

/-- The truth of the atoms of a query. Nothing is a member of the empty list. -/
structure Valuation where
  atom : Expr → Truth
  never : ∀ e, atom (.inList e []) = .no

namespace Predicate

/-- The predicates without a meaning in a query. -/
inductive Skipped (p : Predicate) : Prop where
  | unrecognized (operator : p.operator = .unrecognized)
  | noList (operator : p.operator = .oneOf) (scalar : ∀ values, p.operand ≠ .list values)
  | noPair (operator : p.operator = .between)
      (short : ∀ low high rest, p.operand ≠ .list (low :: high :: rest))

/-- What a predicate says in SQL. A range reads the first two items of its list. -/
def sql? (p : Predicate) : Option Expr :=
  let field := Expr.named p.field
  match p.operator, p.operand with
  | .equal, o => some (.binary field (.compare .equal) (Test.operandExpr o))
  | .notEqual, o => some (.binary field (.compare .notEqual) (Test.operandExpr o))
  | .less, o => some (.binary field (.compare .less) (Test.operandExpr o))
  | .greater, o => some (.binary field (.compare .greater) (Test.operandExpr o))
  | .atMost, o => some (.binary field (.compare .atMost) (Test.operandExpr o))
  | .atLeast, o => some (.binary field (.compare .atLeast) (Test.operandExpr o))
  | .like, o => some (.binary field (.compare .like) (Test.operandExpr o))
  | .notLike, o => some (.binary field (.compare .notLike) (Test.operandExpr o))
  | .oneOf, .list values => some (.inList field (values.map .value))
  | .between, .list (low :: high :: _) => some (.between field (.value low) (.value high))
  | .isNull, _ => some (.isNull field false)
  | .isNotNull, _ => some (.isNull field true)
  | _, _ => none

def truth? (v : Valuation) (p : Predicate) : Option Truth :=
  match p.operator, p.operand with
  | .oneOf, .list [] => some .no
  | _, _ => p.sql?.map v.atom

theorem sql?_eq_none_iff {p : Predicate} : p.sql? = none ↔ p.Skipped := by
  obtain ⟨operator, field, operand⟩ := p
  constructor
  · intro h
    cases operator with
    | unrecognized => exact .unrecognized rfl
    | oneOf =>
      cases operand with
      | scalar v => exact .noList rfl (by simp)
      | list vs => cases h
    | between =>
      rcases operand with v | (_ | ⟨low, _ | ⟨high, rest⟩⟩)
      · exact .noPair rfl (by simp)
      · exact .noPair rfl (by simp)
      · exact .noPair rfl (by simp)
      · cases h
    | _ => cases h
  · rintro (h | ⟨h, hs⟩ | ⟨h, hs⟩)
    · simp only at h
      subst h
      rfl
    · simp only at h hs
      subst h
      cases operand with
      | scalar v => rfl
      | list vs => exact absurd rfl (hs vs)
    · simp only at h hs
      subst h
      rcases operand with v | (_ | ⟨low, _ | ⟨high, rest⟩⟩)
      · rfl
      · rfl
      · rfl
      · exact absurd rfl (hs low high rest)

theorem truth_sql? (v : Valuation) (p : Predicate) :
    p.sql?.map (Expr.truth v.atom) = p.truth? v := by
  obtain ⟨operator, field, operand⟩ := p
  cases operator with
  | oneOf =>
    rcases operand with s | (_ | ⟨x, xs⟩)
    · rfl
    · simp [sql?, truth?, Expr.truth, v.never]
    · rfl
  | between => rcases operand with s | (_ | ⟨low, _ | ⟨high, rest⟩⟩) <;> rfl
  | _ => rfl

theorem clauses_call (p : Predicate) (parent kind : Connective) :
    (p.call parent).clauses kind = (p.sql?.map (Clause.mk parent)).toList := by
  obtain ⟨operator, field, operand⟩ := p
  cases operator with
  | oneOf => cases operand <;> rfl
  | between => rcases operand with s | (_ | ⟨low, _ | ⟨high, rest⟩⟩) <;> rfl
  | _ => rfl

end Predicate

namespace Condition

mutual

def leaves : Condition → List Predicate
  | leaf p => [p]
  | group _ children => leavesOfAll children

def leavesOfAll : List Condition → List Predicate
  | [] => []
  | x :: xs => x.leaves ++ leavesOfAll xs

end

mutual

/-- The truth of a condition: a group joins what its children contribute, and contributes nothing
if none of them does. -/
def truth? (v : Valuation) : Condition → Option Truth
  | leaf p => p.truth? v
  | group c children => Truth.joinAll c (truths v children)

def truths (v : Valuation) : List Condition → List Truth
  | [] => []
  | x :: xs => (x.truth? v).toList ++ truths v xs

end

mutual

/-- The expression of a condition, if a predicate of it is not skipped. -/
def expr? : Condition → Option Expr
  | leaf p => p.sql?
  | group c children => Clause.joinAll c (exprs children)

def exprs : List Condition → List Expr
  | [] => []
  | x :: xs => x.expr?.toList ++ exprs xs

end

mutual

theorem truth_expr? (v : Valuation) (x : Condition) :
    x.expr?.map (Expr.truth v.atom) = x.truth? v := by
  cases x with
  | leaf p => exact p.truth_sql? v
  | group c children => rw [expr?, Clause.truth_joinAll, truth_exprs v children, truth?]

theorem truth_exprs (v : Valuation) (xs : List Condition) :
    (exprs xs).map (Expr.truth v.atom) = truths v xs := by
  cases xs with
  | nil => rfl
  | cons x xs =>
    rw [exprs, truths, List.map_append, truth_exprs v xs, ← truth_expr? v x, Option.toList_map]

end

mutual

/-- A condition without an expression is one whose predicates are all skipped. -/
theorem expr?_eq_none_iff (x : Condition) : x.expr? = none ↔ ∀ p ∈ x.leaves, p.Skipped := by
  cases x with
  | leaf p => simp [expr?, leaves, Predicate.sql?_eq_none_iff]
  | group c children =>
    have h := exprs_eq_nil_iff children
    rw [expr?, leaves, ← h]
    cases exprs children <;> simp [Clause.joinAll]

theorem exprs_eq_nil_iff (xs : List Condition) :
    exprs xs = [] ↔ ∀ p ∈ leavesOfAll xs, p.Skipped := by
  cases xs with
  | nil => simp [exprs, leavesOfAll]
  | cons x xs =>
    have hx := expr?_eq_none_iff x
    have hxs := exprs_eq_nil_iff xs
    simp only [exprs, leavesOfAll, List.append_eq_nil_iff, Option.toList_eq_nil_iff,
      List.mem_append, hx, hxs, or_imp, forall_and]

end

mutual

/-- A condition in a group leaves its expression as one clause, joined as the group says: a nested
group is joined by the kind of the scope around it, which is the connective of the outer group. -/
theorem clauses_call (parent : Connective) (x : Condition) :
    (x.call parent).clauses parent = (x.expr?.map (Clause.mk parent)).toList := by
  cases x with
  | leaf p => exact p.clauses_call parent parent
  | group c children =>
    have h := clauses_calls c children
    cases children with
    | nil => rfl
    | cons child children => rw [call, Call.clauses, h, Clause.combine_map_mk, expr?]

theorem clauses_calls (parent : Connective) (xs : List Condition) :
    Call.clausesOfAll parent (calls parent xs) = (exprs xs).map (Clause.mk parent) := by
  cases xs with
  | nil => rfl
  | cons x xs =>
    rw [calls, Call.clausesOfAll, clauses_call parent x, clauses_calls parent xs, exprs,
      List.map_append, Option.toList_map]

end

/-- A whole condition leaves its expression as one clause, joined as the frame that it is left in
says. -/
theorem clauses_rootCall (kind : Connective) (x : Condition) :
    x.rootCall.clauses kind = (x.expr?.map (Clause.mk kind)).toList := by
  cases x with
  | leaf p =>
    rw [rootCall, Call.clauses, Call.clausesOfAll, Call.clausesOfAll, p.clauses_call, expr?]
    cases p.sql? <;> rfl
  | group c children =>
    cases children with
    | nil => rfl
    | cons child children => exact clauses_call kind (.group c (child :: children))

end Condition

theorem Call.clausesOfAll_append (kind : Connective) (cs ds : List Call) :
    clausesOfAll kind (cs ++ ds) = clausesOfAll kind cs ++ clausesOfAll kind ds := by
  induction cs with
  | nil => rfl
  | cons c cs ih => rw [List.cons_append, clausesOfAll, clausesOfAll, ih, List.append_assoc]

theorem Page.clauses_calls (p : Page) (kind : Connective) :
    Call.clausesOfAll kind p.calls = [] := by
  have hsorts : ∀ sorts : List SortKey, Call.clausesOfAll kind (sorts.map .orderBy) = [] := by
    intro sorts
    induction sorts with
    | nil => rfl
    | cons key sorts ih => rw [List.map_cons, Call.clausesOfAll, ih]; rfl
  rw [calls, Call.clausesOfAll_append, Call.clausesOfAll_append, hsorts]
  cases p.offset <;> cases p.limit <;> rfl

namespace Spec

/-- A spec leaves at most one clause, and its page leaves none. -/
theorem clauses_calls (kind : Connective) (s : Spec Condition) :
    Call.clausesOfAll kind s.calls = ((s.root.bind Condition.expr?).map (Clause.mk kind)).toList := by
  rw [calls, Call.clausesOfAll_append, Page.clauses_calls, List.append_nil]
  cases s.root with
  | none => rfl
  | some x =>
    simp only [Option.map_some, Option.toList_some, Call.clausesOfAll, List.append_nil,
      Condition.clauses_rootCall, Option.bind_some]

theorem condition_calls (table : String) (columns : List String) (s : Spec Condition) :
    (((Draft.ofTable table).withColumns columns).runAll s.calls).1.toSelect.condition =
      s.root.bind Condition.expr? := by
  rw [Draft.condition_runAll, clauses_calls]
  cases s.root.bind Condition.expr? <;> rfl

/-- Compiling preserves the meaning of a spec: under every valuation the condition of the query has
the truth of the tree, and there is no condition exactly if all predicates are skipped. -/
theorem condition_has_truth_of_root (table : String) (columns : List String)
    (s : Spec Condition) :
    let condition :=
      (((Draft.ofTable table).withColumns columns).runAll s.calls).1.toSelect.condition
    (∀ v : Valuation, condition.map (Expr.truth v.atom) = s.root.bind (Condition.truth? v)) ∧
      (condition = none ↔ ∀ root, s.root = some root → ∀ p ∈ root.leaves, p.Skipped) := by
  intro condition
  have hcond : condition = s.root.bind Condition.expr? := condition_calls table columns s
  cases hr : s.root with
  | none => simp [hcond, hr]
  | some root =>
    rw [hr, Option.bind_some] at hcond
    constructor
    · intro v
      rw [hcond, Condition.truth_expr?, Option.bind_some]
    · simp [hcond, Condition.expr?_eq_none_iff]

end Spec

end FilterQuery
