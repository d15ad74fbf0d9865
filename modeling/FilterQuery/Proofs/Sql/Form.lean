import Mathlib.Data.List.Forall2
import FilterQuery.Proofs.Sql.Placeholders

/-!
# The form of a query text

What a text says outside its quoted names is settled by its form: the fixed words, and where a value
is bound. Neither the names nor the values have a part in it.
-/
namespace FilterQuery

namespace Sql

/-- The words of tokens, and `none` for each bound value. -/
def form : List Token → List (Option Word)
  | [] => []
  | .word w :: rest => some w :: form rest
  | .name _ :: rest => form rest
  | .bound _ :: rest => none :: form rest

/-- The text of a form, after `count` parameters. -/
def writeForm (d : Dialect) (count : Nat) : List (Option Word) → List Char
  | [] => []
  | some w :: rest => w.text.toList ++ writeForm d count rest
  | none :: rest => d.placeholder count ++ writeForm d (count + 1) rest

theorem write_unnamed (d : Dialect) (count : Nat) (ts : List Token) :
    write d count (unnamed ts) = writeForm d count (form ts) := by
  induction ts generalizing count with
  | nil => rfl
  | cons t rest ih => cases t <;> simp [unnamed, write, form, writeForm, ih]

theorem form_append (ts us : List Token) : form (ts ++ us) = form ts ++ form us := by
  induction ts with
  | nil => rfl
  | cons t rest ih => cases t <;> simp [form, ih]

/-- A name leaves a dot at most: whether it has two parts. -/
theorem form_dotted (part : Option String) (name : String) :
    form (dotted part name) = if part.isSome then [some .dot] else [] := by
  cases part <;> rfl

def SameForm (ts us : List Token) : Prop := form ts = form us

theorem SameForm.append {ts us vs ws : List Token} (h : SameForm ts us) (k : SameForm vs ws) :
    SameForm (ts ++ vs) (us ++ ws) := by
  unfold SameForm at *
  rw [form_append, form_append, h, k]

theorem SameForm.word (w : Word) {ts us : List Token} (h : SameForm ts us) :
    SameForm (.word w :: ts) (.word w :: us) := congrArg (some w :: ·) h

theorem SameForm.separated {tss uss : List (List Token)} (h : List.Forall₂ SameForm tss uss) :
    SameForm (separated tss) (separated uss) := by
  induction h with
  | nil => rfl
  | cons hhead htail ih =>
    cases htail with
    | nil => exact hhead
    | cons _ _ => exact hhead.append (.word .comma ih)

theorem SameForm.dotted {p q : Option String} (h : p.isSome = q.isSome) (a b : String) :
    SameForm (dotted p a) (dotted q b) := by
  unfold SameForm
  rw [form_dotted, form_dotted, h]

/-- Outside quoted names, texts of one form are equal. -/
theorem outside_render_eq (d : Dialect) {s t : Select} (h : SameForm s.tokens t.tokens) :
    outside d.quote false (s.render d {}).text = outside d.quote false (t.render d {}).text := by
  have htext : ∀ q : Select, outside d.quote false (q.render d {}).text =
      writeForm d 0 (form q.tokens) := by
    intro q
    rw [← write_unnamed, ← outside_write]
    rfl
  rw [htext, htext, h]

end Sql

open Sql

namespace Expr

def SameForm (e f : Expr) : Prop := Sql.SameForm e.tokens f.tokens

theorem SameForm.tokensOfAll {es fs : List Expr} (h : List.Forall₂ SameForm es fs) :
    List.Forall₂ Sql.SameForm (tokensOfAll es) (tokensOfAll fs) := by
  rw [tokensOfAll_eq_map, tokensOfAll_eq_map, List.forall₂_map_left_iff, List.forall₂_map_right_iff]
  exact h

theorem SameForm.column {a b : ColumnName} (h : a.qualifier.isSome = b.qualifier.isSome) :
    SameForm (.column a) (.column b) := Sql.SameForm.dotted h a.name b.name

theorem SameForm.value (v w : Scalar) : SameForm (.value v) (.value w) := rfl

theorem SameForm.tuple {es fs : List Expr} (h : List.Forall₂ SameForm es fs) :
    SameForm (.tuple es) (.tuple fs) := by
  have hitems := Sql.SameForm.separated (tokensOfAll h)
  exact .word .opening (hitems.append rfl)

theorem SameForm.binary {e e' f f' : Expr} (op : BinaryOp) (he : SameForm e e')
    (hf : SameForm f f') : SameForm (.binary e op f) (.binary e' op f') :=
  .word .opening (Sql.SameForm.append he (.word (.operation op) (Sql.SameForm.append hf rfl)))

theorem SameForm.inList {e f : Expr} {es fs : List Expr} (h : SameForm e f)
    (hs : List.Forall₂ SameForm es fs) : SameForm (.inList e es) (.inList f fs) := by
  have hitems := Sql.SameForm.separated (tokensOfAll hs)
  cases hs with
  | nil => rfl
  | cons _ _ => exact .word .opening (Sql.SameForm.append h (.word .among (hitems.append rfl)))

theorem SameForm.between {e f low low' high high' : Expr} (h : SameForm e f)
    (hlow : SameForm low low') (hhigh : SameForm high high') :
    SameForm (.between e low high) (.between f low' high') :=
  .word .opening (Sql.SameForm.append h (.word .within (Sql.SameForm.append hlow
    (.word .upTo (Sql.SameForm.append hhigh rfl)))))

theorem SameForm.isNull {e f : Expr} (h : SameForm e f) (negated : Bool) :
    SameForm (.isNull e negated) (.isNull f negated) := .word .opening (Sql.SameForm.append h rfl)

theorem SameForm.foldl_join (c : Connective) {e f : Expr} {es fs : List Expr} (h : SameForm e f)
    (hs : List.Forall₂ SameForm es fs) :
    SameForm (es.foldl (join c) e) (fs.foldl (join c) f) := by
  induction hs generalizing e f with
  | nil => exact h
  | cons hhead _ ih => exact ih (.binary (.combine c) h hhead)

end Expr

namespace Select

theorem sameForm_clause (w : Word) {e f : Option Expr} (h : Option.Rel Expr.SameForm e f) :
    Sql.SameForm (clause w e) (clause w f) := by
  cases h with
  | none => rfl
  | some h => exact .word w h

theorem sameForm_columnTokens {es fs : List Expr} (h : List.Forall₂ Expr.SameForm es fs) :
    Sql.SameForm (columnTokens es) (columnTokens fs) := by
  have hall := Sql.SameForm.separated (Expr.SameForm.tokensOfAll h)
  unfold columnTokens
  rw [← Expr.tokensOfAll_eq_map, ← Expr.tokensOfAll_eq_map]
  cases h with
  | nil => rfl
  | cons _ _ => exact hall

theorem sameForm_orderTokens {xs ys : List OrderItem}
    (h : List.Forall₂ (fun x y => Sql.SameForm x.tokens y.tokens) xs ys) :
    Sql.SameForm (orderTokens xs) (orderTokens ys) := by
  unfold orderTokens
  cases h with
  | nil => rfl
  | cons hhead htail =>
    refine .word .order (.separated (.cons hhead ?_))
    rw [List.forall₂_map_left_iff, List.forall₂_map_right_iff]
    exact htail

/-- Queries whose parts have the same forms have the same form. -/
theorem sameForm_tokens {s t : Select} (hcolumns : List.Forall₂ Expr.SameForm s.columns t.columns)
    (hsource : Sql.SameForm (sourceTokens s.source) (sourceTokens t.source))
    (hcondition : Option.Rel Expr.SameForm s.condition t.condition)
    (horder : List.Forall₂ (fun x y => Sql.SameForm x.tokens y.tokens) s.order t.order)
    (hlimit : Option.Rel Expr.SameForm s.limit t.limit)
    (hoffset : Option.Rel Expr.SameForm s.offset t.offset) : Sql.SameForm s.tokens t.tokens := by
  have hhead := (sameForm_columnTokens hcolumns).append hsource
  have hwhere := hhead.append (sameForm_clause .condition hcondition)
  have hpage := ((hwhere.append (sameForm_orderTokens horder)).append
    (sameForm_clause .limit hlimit)).append (sameForm_clause .offset hoffset)
  rw [tokens_eq, tokens_eq]
  exact .word .select hpage

end Select

end FilterQuery
