import FilterQuery.Proofs.Compile.Query
import FilterQuery.Proofs.Sql.Placeholders

/-!
# The parameters of a selection

What a selection binds can be read off its spec: the values of the predicates, depth first, then the
limit, then the offset. Regrouping clauses into chains keeps this order.
-/
namespace FilterQuery

/-- The values that a predicate binds. A range binds its two bounds, whatever follows them in the
list, and what is skipped binds nothing. -/
def Predicate.bound (p : Predicate) : List Scalar :=
  match p.operator, p.operand with
  | .oneOf, .list values => values
  | .oneOf, .scalar _ => []
  | .between, .list (low :: high :: _) => [low, high]
  | .between, _ => []
  | .isNull, _ | .isNotNull, _ | .unrecognized, _ => []
  | _, .scalar value => [value]
  | _, .list values => values

namespace Expr

theorem valuesOfAll_map_value (vs : List Scalar) : valuesOfAll (vs.map value) = vs := by
  induction vs with
  | nil => rfl
  | cons v vs ih => rw [List.map_cons, valuesOfAll, ih, values, List.singleton_append]

theorem values_operandExpr (o : Operand) :
    (Test.operandExpr o).values = match o with
      | .scalar v => [v]
      | .list vs => vs := by
  cases o with
  | scalar v => rfl
  | list vs => exact valuesOfAll_map_value vs

theorem values_foldl (c : Connective) (e : Expr) (es : List Expr) :
    (es.foldl (join c) e).values = e.values ++ valuesOfAll es := by
  induction es generalizing e with
  | nil => simp [valuesOfAll]
  | cons x xs ih => rw [List.foldl_cons, ih, join, values, valuesOfAll, List.append_assoc]

theorem valuesOfAll_append (es fs : List Expr) :
    valuesOfAll (es ++ fs) = valuesOfAll es ++ valuesOfAll fs := by
  induction es with
  | nil => rfl
  | cons e es ih => rw [List.cons_append, valuesOfAll, ih, valuesOfAll, List.append_assoc]

/-- Names alone bind nothing. -/
theorem valuesOfAll_eq_nil {es : List Expr} (h : ∀ e ∈ es, e.values = []) :
    valuesOfAll es = [] := by
  induction es with
  | nil => rfl
  | cons e es ih =>
    have he := h e List.mem_cons_self
    have hes := ih fun x hx => h x (List.mem_cons_of_mem _ hx)
    rw [valuesOfAll, he, hes, List.nil_append]

end Expr

theorem Clause.values_joinAll (c : Connective) (es : List Expr) :
    ((joinAll c es).map Expr.values).getD [] = Expr.valuesOfAll es := by
  cases es with
  | nil => rfl
  | cons e es => exact Expr.values_foldl c e es

theorem Predicate.values_sql? (p : Predicate) : (p.sql?.map Expr.values).getD [] = p.bound := by
  obtain ⟨operator, field, operand⟩ := p
  cases operator with
  | oneOf =>
    rcases operand with v | (_ | ⟨v, vs⟩)
    · rfl
    · rfl
    · exact Expr.valuesOfAll_map_value (v :: vs)
  | between => rcases operand with v | (_ | ⟨low, _ | ⟨high, rest⟩⟩) <;> rfl
  | isNull | isNotNull | unrecognized => rfl
  | _ => cases operand with
    | scalar v => rfl
    | list vs => exact Expr.values_operandExpr (.list vs)

namespace Condition

mutual

theorem values_expr? (x : Condition) :
    (x.expr?.map Expr.values).getD [] = x.leaves.flatMap Predicate.bound := by
  cases x with
  | leaf p => simpa [expr?, leaves] using p.values_sql?
  | group c children =>
    rw [expr?, Clause.values_joinAll, valuesOfAll_exprs children, leaves]

theorem valuesOfAll_exprs (xs : List Condition) :
    Expr.valuesOfAll (exprs xs) = (leavesOfAll xs).flatMap Predicate.bound := by
  cases xs with
  | nil => rfl
  | cons x xs =>
    have hx := values_expr? x
    have hxs := valuesOfAll_exprs xs
    have hhead : Expr.valuesOfAll x.expr?.toList = (x.expr?.map Expr.values).getD [] := by
      cases x.expr? <;> simp [Expr.valuesOfAll]
    rw [exprs, Expr.valuesOfAll_append, hhead, hx, hxs, leavesOfAll, List.flatMap_append]

end

end Condition

theorem Draft.values_column (name : String) : (column name).values = [] := by
  by_cases hstar : Text.trim name = "*"
  · simp [column, hstar, Expr.values]
  · simp [column, hstar, Expr.named, Expr.values]

namespace Spec

/-- The predicates of a spec, depth first and in the order of the children. -/
def leaves (s : Spec Condition) : List Predicate := (s.root.map Condition.leaves).getD []

/-- A count as it is bound: an integer, at most 2⁶³ - 1. -/
def boundCount (n : UInt64) : Scalar := .int (Int64.ofNat (min n.toNat 0x7fffffffffffffff))

theorem values_query (table : String) (columns : List String) (s : Spec Condition) :
    (s.query table columns).values =
      s.leaves.flatMap Predicate.bound ++ (s.page.limit.map boundCount).toList ++
        (s.page.offset.map boundCount).toList := by
  have hcolumns : Expr.valuesOfAll (columns.map Draft.column) = [] := by
    refine Expr.valuesOfAll_eq_nil fun e he => ?_
    obtain ⟨name, _, rfl⟩ := List.mem_map.mp he
    exact Draft.values_column name
  have horder : Expr.valuesOfAll ((s.sorts.map Draft.orderItem).map OrderItem.expr) = [] := by
    refine Expr.valuesOfAll_eq_nil fun e he => ?_
    obtain ⟨item, hitem, rfl⟩ := List.mem_map.mp he
    obtain ⟨key, _, rfl⟩ := List.mem_map.mp hitem
    rfl
  have hcondition : ((s.root.bind Condition.expr?).map Expr.values).getD [] =
      s.leaves.flatMap Predicate.bound := by
    cases hroot : s.root with
    | none => simp [leaves, hroot]
    | some x => simpa [leaves, hroot] using x.values_expr?
  have hcount : ∀ n : Option UInt64,
      ((n.map Draft.count).map Expr.values).getD [] = (n.map boundCount).toList := by
    intro n
    cases n <;> rfl
  rw [Select.values, query, hcolumns, horder, hcondition, hcount, hcount, List.nil_append,
    List.append_nil]

end Spec

/-- The parameters of a selection are the values of its predicates, depth first, then its limit,
then its offset. Dialect, table and columns have no part in them. -/
theorem Selection.params_eq_bound (dialect : Dialect) (table : String) (columns : List String)
    (s : Spec Condition) :
    (make dialect table columns (some s)).params =
      s.leaves.flatMap Predicate.bound ++ (s.page.limit.map Spec.boundCount).toList ++
        (s.page.offset.map Spec.boundCount).toList := by
  have hparams := (make_eq_render dialect table columns (some s)).2
  have hrender := (Sql.render_appends dialect {}).2 (s.query table columns)
  rw [hparams, Option.getD_some, hrender.params, Spec.values_query]
  rfl

end FilterQuery
