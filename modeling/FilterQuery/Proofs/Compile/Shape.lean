import FilterQuery.Proofs.Compile.Query
import FilterQuery.Proofs.Sql.Form

/-!
# What a user cannot say

Two selections of one shape have the same text outside their quoted names. The shape holds the
connectives, the operators, the forms of operands, which names have two parts and what the page
sets: no name and no value can reach the rest of the text.
-/
namespace FilterQuery

/-- Names with as many parts. -/
def ColumnName.Alike (a b : ColumnName) : Prop := a.qualifier.isSome = b.qualifier.isSome

def TableName.Alike (a b : TableName) : Prop := a.schema.isSome = b.schema.isSome

/-- Two scalars, or two lists of as many. -/
inductive Operand.Alike : Operand → Operand → Prop where
  | scalar (a b : Scalar) : Alike (.scalar a) (.scalar b)
  | list {as bs : List Scalar} (length : as.length = bs.length) : Alike (.list as) (.list bs)

structure Predicate.Alike (p q : Predicate) : Prop where
  operator : p.operator = q.operator
  field : (ColumnName.parse p.field).Alike (ColumnName.parse q.field)
  operand : p.operand.Alike q.operand

namespace Condition

mutual

/-- Trees of the same connectives with alike predicates at the same places. -/
inductive Alike : Condition → Condition → Prop where
  | leaf {p q : Predicate} (predicate : p.Alike q) : Alike (.leaf p) (.leaf q)
  | group (c : Connective) {xs ys : List Condition} (children : AllAlike xs ys) :
      Alike (.group c xs) (.group c ys)

inductive AllAlike : List Condition → List Condition → Prop where
  | nil : AllAlike [] []
  | cons {x y : Condition} {xs ys : List Condition} (head : Alike x y) (tail : AllAlike xs ys) :
      AllAlike (x :: xs) (y :: ys)

end

end Condition

structure SortKey.Alike (a b : SortKey) : Prop where
  direction : a.direction = b.direction
  field : (ColumnName.parse a.field).Alike (ColumnName.parse b.field)

/-- Specs that differ in names and values only. -/
structure Spec.Alike (s t : Spec Condition) : Prop where
  root : Option.Rel Condition.Alike s.root t.root
  sorts : List.Forall₂ SortKey.Alike s.sorts t.sorts
  limit : s.page.limit.isSome = t.page.limit.isSome
  offset : s.page.offset.isSome = t.page.offset.isSome

/-- Two columns that are both a star, or both names with as many parts. -/
inductive ColumnAlike (a b : String) : Prop where
  | star (left : Text.trim a = "*") (right : Text.trim b = "*")
  | named (left : Text.trim a ≠ "*") (right : Text.trim b ≠ "*")
      (parts : (ColumnName.parse (Text.trim a)).Alike (ColumnName.parse (Text.trim b)))

open FilterQuery.Expr (SameForm)

theorem ColumnName.Alike.sameForm {s t : String}
    (h : (ColumnName.parse s).Alike (ColumnName.parse t)) :
    SameForm (.named s) (.named t) := SameForm.column h

theorem ColumnAlike.sameForm {a b : String} (h : ColumnAlike a b) :
    SameForm (Draft.column a) (Draft.column b) := by
  rcases h with ⟨ha, hb⟩ | ⟨ha, hb, hparts⟩
  · simp only [Draft.column, ha, hb, if_true]
    rfl
  · simp only [Draft.column, ha, hb, if_false]
    exact hparts.sameForm

theorem Expr.sameForm_values {as bs : List Scalar} (h : as.length = bs.length) :
    List.Forall₂ SameForm (as.map .value) (bs.map .value) := by
  rw [List.forall₂_map_left_iff, List.forall₂_map_right_iff, List.forall₂_iff_zip]
  exact ⟨h, fun _ => SameForm.value _ _⟩

theorem Operand.Alike.sameForm {o o' : Operand} (h : o.Alike o') :
    SameForm (Test.operandExpr o) (Test.operandExpr o') := by
  cases h with
  | scalar a b => exact .value a b
  | list hlength => exact .tuple (Expr.sameForm_values hlength)

theorem Predicate.Alike.sql? {p q : Predicate} (h : p.Alike q) :
    Option.Rel SameForm p.sql? q.sql? := by
  obtain ⟨operator, field, operand⟩ := p
  obtain ⟨operator', field', operand'⟩ := q
  obtain ⟨hoperator, hfield, hoperand⟩ := h
  simp only at hoperator hfield hoperand
  subst hoperator
  have hname := hfield.sameForm
  have hright := hoperand.sameForm
  cases operator with
  | oneOf =>
    cases hoperand with
    | scalar a b => exact .none
    | list hlength => exact .some (.inList hname (Expr.sameForm_values hlength))
  | between =>
    cases hoperand with
    | scalar a b => exact .none
    | @list as bs hlength =>
      rcases as with _ | ⟨a, _ | ⟨a', as⟩⟩ <;> rcases bs with _ | ⟨b, _ | ⟨b', bs⟩⟩ <;>
        simp only [List.length_cons, List.length_nil] at hlength <;> try omega
      · exact .none
      · exact .none
      · exact .some (.between hname (.value a b) (.value a' b'))
  | isNull => exact .some (.isNull hname false)
  | isNotNull => exact .some (.isNull hname true)
  | unrecognized => exact .none
  | _ => exact .some (.binary _ hname hright)

theorem Clause.sameForm_joinAll (c : Connective) {es fs : List Expr}
    (h : List.Forall₂ SameForm es fs) : Option.Rel SameForm (joinAll c es) (joinAll c fs) := by
  cases h with
  | nil => exact .none
  | cons hhead htail => exact .some (.foldl_join c hhead htail)

theorem Expr.sameForm_toList {e f : Option Expr} (h : Option.Rel SameForm e f) :
    List.Forall₂ SameForm e.toList f.toList := by
  cases h with
  | none => exact .nil
  | some h => exact .cons h .nil

namespace Condition

mutual

theorem Alike.expr? {x y : Condition} (h : Alike x y) : Option.Rel SameForm x.expr? y.expr? := by
  cases h with
  | leaf predicate => exact predicate.sql?
  | group c children => exact Clause.sameForm_joinAll c (AllAlike.exprs children)

theorem AllAlike.exprs {xs ys : List Condition} (h : AllAlike xs ys) :
    List.Forall₂ SameForm (exprs xs) (exprs ys) := by
  cases h with
  | nil => exact .nil
  | cons head tail =>
    have hhead := Expr.sameForm_toList (Alike.expr? head)
    have htail := AllAlike.exprs tail
    exact List.rel_append hhead htail

end

end Condition

theorem SortKey.Alike.sameForm {a b : SortKey} (h : a.Alike b) :
    Sql.SameForm (Draft.orderItem a).tokens (Draft.orderItem b).tokens := by
  have hname := h.field.sameForm
  have hdirection : (Draft.orderItem a).direction = (Draft.orderItem b).direction :=
    congrArg some h.direction
  unfold OrderItem.tokens
  rw [hdirection]
  exact Sql.SameForm.append hname rfl

theorem Draft.sameForm_count {m n : Option UInt64} (h : m.isSome = n.isSome) :
    Option.Rel SameForm (m.map count) (n.map count) := by
  cases m with
  | none =>
    cases n with
    | none => exact .none
    | some _ => cases h
  | some _ =>
    cases n with
    | none => cases h
    | some _ => exact .some rfl

theorem Spec.Alike.sameForm {s t : Spec Condition} {table table' : String}
    {columns columns' : List String}
    (htable : (TableName.parse table).Alike (TableName.parse table'))
    (hcolumns : List.Forall₂ ColumnAlike columns columns') (h : s.Alike t) :
    Sql.SameForm (s.query table columns).tokens (t.query table' columns').tokens := by
  refine Select.sameForm_tokens ?_ ?_ ?_ ?_ (Draft.sameForm_count h.limit)
    (Draft.sameForm_count h.offset)
  · unfold Spec.query
    rw [List.forall₂_map_left_iff, List.forall₂_map_right_iff]
    exact hcolumns.imp fun _ _ hc => hc.sameForm
  · exact .word .source (.append (.dotted htable _ _) rfl)
  · unfold Spec.query
    generalize s.root = r, t.root = u, h.root = hroot
    cases hroot with
    | none => exact .none
    | some hc => exact hc.expr?
  · unfold Spec.query
    rw [List.forall₂_map_left_iff, List.forall₂_map_right_iff]
    exact h.sorts.imp fun _ _ hk => hk.sameForm

/-- Selections of one shape have the same text outside quoted names, whatever the names and the
values are. -/
theorem Selection.outside_eq_of_alike (dialect : Dialect) {table table' : String}
    {columns columns' : List String} {spec spec' : Option (Spec Condition)}
    (htable : (TableName.parse table).Alike (TableName.parse table'))
    (hcolumns : List.Forall₂ ColumnAlike columns columns')
    (hspec : Option.Rel Spec.Alike spec spec') :
    Sql.outside dialect.quote false (make dialect table columns spec).sql.toList =
      Sql.outside dialect.quote false (make dialect table' columns' spec').sql.toList := by
  have hsame : (spec.getD {}).Alike (spec'.getD {}) := by
    cases hspec with
    | some h => exact h
    | none => exact ⟨.none, .nil, rfl, rfl⟩
  have hform := hsame.sameForm htable hcolumns
  have hsql := (make_eq_render dialect table columns spec).1
  have hsql' := (make_eq_render dialect table' columns' spec').1
  rw [hsql, hsql', Sql.Output.sql, Sql.Output.sql, String.toList_ofList, String.toList_ofList]
  exact Sql.outside_render_eq dialect hform

/-- A spec with ordinary names and values. -/
def Spec.plain : Spec Condition where
  root := some (.group .or [.leaf ⟨.equal, "u.name", .scalar (.text "ann")⟩,
    .group .and [.leaf ⟨.between, "age", .list [.int 18, .int 30]⟩]])
  sorts := [⟨"age", .descending⟩]
  offset := some 5
  limit := some 10

/-- The same shape, with names and values that try to leave their quotes. -/
def Spec.hostile : Spec Condition where
  root := some (.group .or [.leaf ⟨.equal, "\" OR 1=1 --.\x60", .scalar .null⟩,
    .group .and [.leaf ⟨.between, "?, (", .list [.text "\x60; DROP", .bool true]⟩]])
  sorts := [⟨"\x60 ASC, \"", .descending⟩]
  offset := some 1
  limit := some 1000

theorem Spec.plain_alike_hostile : Spec.plain.Alike Spec.hostile where
  root := .some (.group .or (.cons (.leaf ⟨rfl, rfl, .scalar _ _⟩)
    (.cons (.group .and (.cons (.leaf ⟨rfl, rfl, .list rfl⟩) .nil)) .nil)))
  sorts := .cons ⟨rfl, rfl⟩ .nil
  limit := rfl
  offset := rfl

theorem Selection.outside_plain_eq_hostile :
    (TableName.parse "users").Alike (TableName.parse "\x60, \"") ∧
      List.Forall₂ ColumnAlike ["*", "id"] [" * ", "\x60 FROM \""] ∧
      Option.Rel Spec.Alike (some Spec.plain) (some Spec.hostile) ∧
      Sql.outside '\x60' false (make .mysql "users" ["*", "id"] (some Spec.plain)).sql.toList =
        Sql.outside '\x60' false
          (make .mysql "\x60, \"" [" * ", "\x60 FROM \""] (some Spec.hostile)).sql.toList := by
  have htable : (TableName.parse "users").Alike (TableName.parse "\x60, \"") := rfl
  have hcolumns : List.Forall₂ ColumnAlike ["*", "id"] [" * ", "\x60 FROM \""] :=
    .cons (.star (by decide) (by decide)) (.cons (.named (by decide) (by decide) rfl) .nil)
  have hspec : Option.Rel Spec.Alike (some Spec.plain) (some Spec.hostile) :=
    .some Spec.plain_alike_hostile
  exact ⟨htable, hcolumns, hspec, outside_eq_of_alike .mysql htable hcolumns hspec⟩

end FilterQuery
