import FilterQuery.Proofs.Compile.Parameters
import FilterQuery.Proofs.Sql.Shown

/-!
# Empty lists in a query text

Membership in an empty list is written as a condition that never holds. A comparison with an empty
list has no such form and is written with nothing between its parentheses. Main statement: this is
the one way in which empty parentheses get into the text of a selection.
-/
namespace FilterQuery

namespace Sql

/-- The place of a form ends in an opening parenthesis. -/
def Opens (f : Option Word) : Prop := f = some .opening ∨ f = some .among

/-- The place of a form has no parenthesis that has a counterpart in another place. -/
def isPlain : Option Word → Bool
  | some .opening | some .among | some .closing => false
  | _ => true

theorem of_isPlain {f : Option Word} (h : isPlain f = true) : f ≠ some .closing ∧ ¬ Opens f := by
  refine ⟨?_, ?_⟩
  · rintro rfl
    cases h
  · rintro (rfl | rfl) <;> cases h

/-- No parenthesis is closed right where one is opened, and none is left to its neighbours. -/
structure Filled (fs : List (Option Word)) : Prop where
  inside : fs.IsChain fun f g => ¬ (Opens f ∧ g = some .closing)
  first : ∀ f ∈ fs.head?, f ≠ some .closing
  last : ∀ f ∈ fs.getLast?, ¬ Opens f

namespace Filled

theorem nil : Filled [] := ⟨.nil, by simp, by simp⟩

theorem append {fs gs : List (Option Word)} (h : Filled fs) (k : Filled gs) : Filled (fs ++ gs) := by
  refine ⟨?_, ?_, ?_⟩
  · rw [List.isChain_append]
    exact ⟨h.inside, k.inside, fun f hf g _ hfg => h.last f hf hfg.1⟩
  · intro f hf
    cases fs with
    | nil => exact k.first f hf
    | cons x xs => exact h.first f hf
  · intro f hf
    rw [List.getLast?_append] at hf
    cases hlast : gs.getLast? with
    | none =>
      rw [hlast, Option.none_or] at hf
      exact h.last f hf
    | some g =>
      rw [hlast, Option.some_or] at hf
      exact k.last f (hlast ▸ hf)

theorem cons {f : Option Word} (hf : isPlain f = true) {fs : List (Option Word)} (h : Filled fs) :
    Filled (f :: fs) := by
  obtain ⟨hclosing, hopens⟩ := of_isPlain hf
  have hfirst : Filled [f] := by
    refine ⟨.singleton f, fun g hg => ?_, fun g hg => ?_⟩
    · cases hg
      exact hclosing
    · cases hg
      exact hopens
  exact hfirst.append h

theorem of_forall {fs : List (Option Word)} (h : ∀ f ∈ fs, isPlain f = true) : Filled fs := by
  induction fs with
  | nil => exact nil
  | cons f fs ih =>
    rw [List.forall_mem_cons] at h
    exact (ih h.2).cons h.1

/-- Parentheses may be put around what is not empty. -/
theorem bracket {w : Word} (hw : w ≠ .closing) {fs : List (Option Word)} (h : Filled fs)
    (hne : fs ≠ []) : Filled (some w :: (fs ++ [some .closing])) := by
  refine ⟨?_, ?_, ?_⟩
  · rw [List.isChain_cons, List.isChain_append]
    refine ⟨fun g hg hopens => ?_, h.inside, .singleton _, fun f hf g _ hfg => h.last f hf hfg.1⟩
    rw [List.head?_append_of_ne_nil _ hne] at hg
    exact h.first g hg hopens.2
  · intro f hf
    cases hf
    exact fun heq => hw (Option.some.inj heq)
  · intro f hf
    rw [← List.cons_append, List.getLast?_concat] at hf
    cases hf
    simp [Opens]

end Filled

theorem Word.parentheses_of_mem {u : Word} (hu : u ∈ vocabulary) :
    u.text.toList.IsChain (Apart '(' ')') ∧
      (u.text.toList.getLast? = some '(' → u = .opening ∨ u = .among) ∧
      (u.text.toList.head? = some ')' → u = .closing) := by
  have hall : ∀ u ∈ vocabulary, u.text.toList.IsChain (Apart '(' ')') ∧
      (u.text.toList.getLast? = some '(' → u = .opening ∨ u = .among) ∧
      (u.text.toList.head? = some ')' → u = .closing) := by decide +kernel
  exact hall u hu

theorem Filled.not_shows {ts : List Token} (h : Filled (form ts)) (d : Dialect) (count : Nat) :
    ¬ Shows d.quote (write d count ts) "()".toList := by
  intro hshows
  have hplaceholder : ∀ {n c}, c ∈ d.placeholder n → c ≠ '(' ∧ c ≠ ')' := by
    intro n c hc
    rcases mem_placeholder hc with rfl | rfl | hdigit
    · decide
    · decide
    · constructor <;> rintro rfl <;> cases hdigit
  have hwithin : ∀ f ∈ form ts, ∀ n, (placeText d n f).IsChain (Apart '(' ')') := by
    intro f _ n
    cases f with
    | none => exact isChain_of_not_mem fun hmem => (hplaceholder hmem).2 rfl
    | some u => exact (Word.parentheses_of_mem u.mem_vocabulary).1
  have hacross : (form ts).IsChain fun f g => ∀ m n, ∀ x ∈ (placeText d m f).getLast?,
      ∀ y ∈ (placeText d n g).head?, Apart '(' ')' x y := by
    refine h.inside.imp fun f g hfg m n x hx y hy hxy => hfg ?_
    obtain ⟨rfl, rfl⟩ := hxy
    constructor
    · cases f with
      | none => exact absurd rfl (hplaceholder (List.mem_of_mem_getLast? hx)).1
      | some u =>
        rcases (Word.parentheses_of_mem u.mem_vocabulary).2.1 hx with rfl | rfl
        · exact .inl rfl
        · exact .inr rfl
    · cases g with
      | none => exact absurd rfl (hplaceholder (List.mem_of_mem_head? hy)).2
      | some u => exact congrArg some ((Word.parentheses_of_mem u.mem_vocabulary).2.2 hy)
  have hquote : d.quote ∉ "()".toList := by cases d <;> decide
  have hpair := hshows.infix_outside hquote
  rw [outside_write, write_unnamed] at hpair
  exact not_isChain_of_pair hpair (isChain_writeForm hwithin hacross count)

theorem isPlain_of_dotted {part : Option String} {name : String} {f : Option Word}
    (hf : f ∈ form (dotted part name)) : isPlain f = true := by
  rw [form_dotted] at hf
  cases part with
  | none => cases hf
  | some q =>
    cases List.mem_singleton.mp hf
    rfl

theorem isPlain_of_separated {tss : List (List Token)}
    (h : ∀ ts ∈ tss, ∀ f ∈ form ts, isPlain f = true) {f : Option Word}
    (hf : f ∈ form (separated tss)) : isPlain f = true := by
  rcases mem_form_separated hf with rfl | ⟨ts, hts, hf⟩
  · rfl
  · exact h ts hts f hf

/-- Bound values with commas between them. -/
theorem filled_values (vs : List Scalar) :
    Filled (form (separated (Expr.tokensOfAll (vs.map .value)))) := by
  refine .of_forall fun f hf => isPlain_of_separated (fun ts hts f hf => ?_) hf
  rw [Expr.tokensOfAll_eq_map, List.map_map] at hts
  obtain ⟨v, _, rfl⟩ := List.mem_map.mp hts
  cases List.mem_singleton.mp hf
  rfl

theorem form_values_ne_nil (v : Scalar) (vs : List Scalar) :
    form (separated (Expr.tokensOfAll ((v :: vs).map .value))) ≠ [] := by
  cases vs <;> exact List.cons_ne_nil _ _

end Sql

open Sql

namespace Expr

theorem filled_named (field : String) : Filled (form (named field).tokens) :=
  .of_forall fun _ hf => isPlain_of_dotted hf

theorem filled_binary {left right : Expr} (op : BinaryOp) (hl : Filled (form left.tokens))
    (hr : Filled (form right.tokens)) : Filled (form (binary left op right).tokens) := by
  have hinner := hl.append (hr.cons (f := some (.operation op)) rfl)
  have hall := hinner.bracket (w := .opening) (by decide) (by simp)
  simpa [tokens, form, form_append] using hall

theorem filled_tuple (v : Scalar) (vs : List Scalar) :
    Filled (form (tuple ((v :: vs).map value)).tokens) := by
  have hall := (filled_values (v :: vs)).bracket (w := .opening) (by decide)
    (form_values_ne_nil v vs)
  rw [tokens, form, form_append]
  exact hall

theorem filled_inList {e : Expr} (he : Filled (form e.tokens)) (vs : List Scalar) :
    Filled (form (inList e (vs.map value)).tokens) := by
  cases vs with
  | nil => exact Filled.nil.cons rfl
  | cons v vs =>
    have hitems := (filled_values (v :: vs)).bracket (w := .among) (by decide)
      (form_values_ne_nil v vs)
    have hall := (he.append hitems).bracket (w := .opening) (by decide) (by simp)
    simpa [tokens, form, form_append] using hall

theorem filled_between {e : Expr} (he : Filled (form e.tokens)) (low high : Scalar) :
    Filled (form (between e (.value low) (.value high)).tokens) := by
  have hbounds : Filled [some .within, none, some .upTo, none] :=
    .of_forall (by simp [isPlain])
  have hall := (he.append hbounds).bracket (w := .opening) (by decide) (by simp)
  simpa [tokens, form, form_append] using hall

theorem filled_isNull {e : Expr} (he : Filled (form e.tokens)) (negated : Bool) :
    Filled (form (isNull e negated).tokens) := by
  have hinner := he.append (Filled.nil.cons (f := some (.isNull negated)) rfl)
  have hall := hinner.bracket (w := .opening) (by decide) (by simp)
  simpa [tokens, form, form_append] using hall

theorem filled_foldl_join (c : Connective) {e : Expr} {es : List Expr}
    (he : Filled (form e.tokens)) (hes : ∀ f ∈ es, Filled (form f.tokens)) :
    Filled (form (es.foldl (join c) e).tokens) := by
  induction es generalizing e with
  | nil => exact he
  | cons f fs ih =>
    rw [List.forall_mem_cons] at hes
    exact ih (filled_binary (.combine c) he hes.1) hes.2

theorem infix_join (c : Connective) (e f : Expr) :
    e.tokens <:+: (join c e f).tokens ∧ f.tokens <:+: (join c e f).tokens := by
  constructor
  · exact ⟨[.word .opening], .word (.operation (.combine c)) :: (f.tokens ++ [.word .closing]),
      by simp [join, tokens]⟩
  · exact ⟨.word .opening :: (e.tokens ++ [.word (.operation (.combine c))]), [.word .closing],
      by simp [join, tokens]⟩

/-- What is joined is in the text of the joined expression. -/
theorem infix_foldl_join (c : Connective) {e f : Expr} {es : List Expr} (hf : f ∈ e :: es) :
    f.tokens <:+: (es.foldl (join c) e).tokens := by
  induction es generalizing e f with
  | nil =>
    cases List.mem_singleton.mp hf
    exact List.infix_rfl
  | cons g gs ih =>
    have hfirst : (join c e g).tokens <:+: (gs.foldl (join c) (join c e g)).tokens :=
      ih List.mem_cons_self
    obtain ⟨he, hg⟩ := infix_join c e g
    rcases List.mem_cons.mp hf with rfl | hrest
    · exact he.trans hfirst
    · rcases List.mem_cons.mp hrest with rfl | hrest
      · exact hg.trans hfirst
      · exact ih (List.mem_cons_of_mem _ hrest)

end Expr

/-- A comparison with an empty list. -/
structure Predicate.ComparesEmpty (p : Predicate) : Prop where
  comparison : (Comparison.ofOperator p.operator).isSome
  empty : p.operand = .list []

namespace Predicate

theorem sql?_of_comparison {p : Predicate} {c : Comparison}
    (h : Comparison.ofOperator p.operator = some c) :
    p.sql? = some (.binary (.named p.field) (.compare c) (Test.operandExpr p.operand)) := by
  obtain ⟨operator, field, operand⟩ := p
  cases operator <;> cases h <;> rfl

theorem filled_sql? {p : Predicate} (h : ¬ p.ComparesEmpty) {e : Expr} (he : p.sql? = some e) :
    Filled (form e.tokens) := by
  have hfield := Expr.filled_named p.field
  cases hc : Comparison.ofOperator p.operator with
  | some c =>
    rw [sql?_of_comparison hc] at he
    cases he
    refine Expr.filled_binary _ hfield ?_
    rcases hoperand : p.operand with v | (_ | ⟨v, vs⟩)
    · exact Filled.nil.cons rfl
    · exact absurd ⟨by rw [hc]; rfl, hoperand⟩ h
    · exact Expr.filled_tuple v vs
  | none =>
    obtain ⟨operator, field, operand⟩ := p
    cases operator with
    | oneOf =>
      cases operand with
      | scalar v => cases he
      | list vs =>
        cases he
        exact Expr.filled_inList hfield vs
    | between =>
      rcases operand with v | (_ | ⟨low, _ | ⟨high, rest⟩⟩)
      · cases he
      · cases he
      · cases he
      · cases he
        exact Expr.filled_between hfield low high
    | isNull =>
      cases he
      exact Expr.filled_isNull hfield false
    | isNotNull =>
      cases he
      exact Expr.filled_isNull hfield true
    | unrecognized => cases he
    | _ => cases hc

/-- The parentheses of an empty list that something is compared with. -/
theorem infix_sql? {p : Predicate} (h : p.ComparesEmpty) :
    ∃ e, p.sql? = some e ∧ [Word.opening, Word.closing].map .word <:+: e.tokens := by
  obtain ⟨c, hc⟩ := Option.isSome_iff_exists.mp h.comparison
  refine ⟨_, sql?_of_comparison hc, ?_⟩
  rw [h.empty]
  exact ⟨.word .opening :: ((Expr.named p.field).tokens ++ [.word (.operation (.compare c))]),
    [.word .closing], by simp [Test.operandExpr, Expr.tokens, Expr.tokensOfAll, separated]⟩

end Predicate

namespace Condition

mutual

theorem filled_expr? {x : Condition} (h : ∀ p ∈ x.leaves, ¬ p.ComparesEmpty) {e : Expr}
    (he : x.expr? = some e) : Filled (form e.tokens) := by
  cases x with
  | leaf p => exact p.filled_sql? (h p (List.mem_singleton.mpr rfl)) he
  | group c children =>
    have hchildren : ∀ e ∈ exprs children, Filled (form e.tokens) := filled_exprs h
    rw [expr?] at he
    cases hexprs : exprs children with
    | nil =>
      rw [hexprs] at he
      cases he
    | cons f fs =>
      rw [hexprs] at he hchildren
      cases he
      rw [List.forall_mem_cons] at hchildren
      exact Expr.filled_foldl_join c hchildren.1 hchildren.2

theorem filled_exprs {xs : List Condition} (h : ∀ p ∈ leavesOfAll xs, ¬ p.ComparesEmpty) :
    ∀ e ∈ exprs xs, Filled (form e.tokens) := by
  cases xs with
  | nil => exact fun e he => absurd he List.not_mem_nil
  | cons x xs =>
    rw [leavesOfAll, List.forall_mem_append] at h
    rw [exprs, List.forall_mem_append]
    refine ⟨fun e he => filled_expr? h.1 (Option.mem_toList.mp he), filled_exprs h.2⟩

end

mutual

/-- What a predicate says is in what the tree says. -/
theorem infix_expr? {x : Condition} {p : Predicate} (hp : p ∈ x.leaves) {e : Expr}
    (he : p.sql? = some e) : ∃ f, x.expr? = some f ∧ e.tokens <:+: f.tokens := by
  cases x with
  | leaf q =>
    cases List.mem_singleton.mp hp
    exact ⟨e, he, List.infix_rfl⟩
  | group c children =>
    obtain ⟨f, hf, hpiece⟩ := infix_exprs hp he
    rw [expr?]
    cases hexprs : exprs children with
    | nil =>
      rw [hexprs] at hf
      cases hf
    | cons g gs =>
      rw [hexprs] at hf
      exact ⟨_, rfl, hpiece.trans (Expr.infix_foldl_join c hf)⟩

theorem infix_exprs {xs : List Condition} {p : Predicate} (hp : p ∈ leavesOfAll xs) {e : Expr}
    (he : p.sql? = some e) : ∃ f ∈ exprs xs, e.tokens <:+: f.tokens := by
  cases xs with
  | nil => cases hp
  | cons x xs =>
    rw [exprs]
    rcases List.mem_append.mp hp with hhead | htail
    · obtain ⟨f, hf, hpiece⟩ := infix_expr? hhead he
      exact ⟨f, List.mem_append_left _ (Option.mem_toList.mpr hf), hpiece⟩
    · obtain ⟨f, hf, hpiece⟩ := infix_exprs htail he
      exact ⟨f, List.mem_append_right _ hf, hpiece⟩

end

end Condition

namespace Draft

theorem isPlain_of_column {name : String} {f : Option Word}
    (hf : f ∈ form (column name).tokens) : isPlain f = true := by
  by_cases hstar : Text.trim name = "*"
  · simp only [column, hstar, if_true] at hf
    cases List.mem_singleton.mp hf
    rfl
  · simp only [column, hstar, if_false] at hf
    exact isPlain_of_dotted hf

theorem isPlain_of_orderItem {key : SortKey} {f : Option Word}
    (hf : f ∈ form (orderItem key).tokens) : isPlain f = true := by
  rw [OrderItem.tokens, form_append, List.mem_append] at hf
  rcases hf with hname | hdirection
  · exact isPlain_of_dotted hname
  · cases List.mem_singleton.mp hdirection
    rfl

theorem filled_columns (names : List String) :
    Filled (form (Select.columnTokens (names.map column))) := by
  refine .of_forall fun f hf => ?_
  unfold Select.columnTokens at hf
  split at hf
  · cases List.mem_singleton.mp hf
    rfl
  · refine isPlain_of_separated (fun ts hts f hf => ?_) hf
    obtain ⟨e, he, rfl⟩ := List.mem_map.mp hts
    obtain ⟨name, _, rfl⟩ := List.mem_map.mp he
    exact isPlain_of_column hf

theorem filled_order (keys : List SortKey) :
    Filled (form (Select.orderTokens (keys.map orderItem))) := by
  unfold Select.orderTokens
  split
  · exact .nil
  · refine .cons rfl (.of_forall fun f hf => isPlain_of_separated (fun ts hts f hf => ?_) hf)
    obtain ⟨item, hitem, rfl⟩ := List.mem_map.mp hts
    obtain ⟨key, _, rfl⟩ := List.mem_map.mp hitem
    exact isPlain_of_orderItem hf

theorem filled_count {w : Word} (hw : isPlain (some w) = true) (n : Option UInt64) :
    Filled (form (Select.clause w (n.map count))) := by
  cases n with
  | none => exact .nil
  | some n => exact .cons hw (.cons rfl .nil)

end Draft

namespace Spec

theorem filled_condition {s : Spec Condition} (h : ∀ p ∈ s.leaves, ¬ p.ComparesEmpty) :
    Filled (form (Select.clause .condition (s.root.bind Condition.expr?))) := by
  cases hroot : s.root with
  | none => exact .nil
  | some x =>
    have hleaves : ∀ p ∈ x.leaves, ¬ p.ComparesEmpty := by
      rw [leaves, hroot] at h
      exact h
    rw [Option.bind_some]
    cases he : x.expr? with
    | none => exact .nil
    | some e => exact .cons rfl (Condition.filled_expr? hleaves he)

theorem filled_query (table : String) (columns : List String) {s : Spec Condition}
    (h : ∀ p ∈ s.leaves, ¬ p.ComparesEmpty) : Filled (form (s.query table columns).tokens) := by
  have hsource : Filled (form (Select.sourceTokens (some ⟨TableName.parse table, none⟩))) := by
    rw [Select.sourceTokens, Source.tokens, List.append_nil, form]
    exact .cons rfl (.of_forall fun f hf => isPlain_of_dotted hf)
  have hhead := ((Draft.filled_columns columns).append hsource).append (filled_condition h)
  have hlimit := Draft.filled_count (w := .limit) rfl s.page.limit
  have hoffset := Draft.filled_count (w := .offset) rfl s.page.offset
  have hall := ((hhead.append (Draft.filled_order s.sorts)).append hlimit).append hoffset
  rw [Select.tokens_eq, form]
  simp only [form_append]
  exact .cons rfl hall

/-- The text of the condition is in the text of the query. -/
theorem infix_query (table : String) (columns : List String) {s : Spec Condition} {e : Expr}
    (he : s.root.bind Condition.expr? = some e) :
    e.tokens <:+: (s.query table columns).tokens := by
  have hcondition : Select.clause .condition (s.query table columns).condition =
      .word .condition :: e.tokens := by
    rw [query, he]
    rfl
  rw [Select.tokens_eq, hcondition]
  exact ⟨.word .select :: (Select.columnTokens (s.query table columns).columns ++
      Select.sourceTokens (s.query table columns).source ++ [.word .condition]),
    Select.orderTokens (s.query table columns).order ++
      Select.clause .limit (s.query table columns).limit ++
      Select.clause .offset (s.query table columns).offset, by simp⟩

end Spec

namespace Selection

/-- Empty parentheses stand outside the names of a query text exactly if something is compared with
an empty list, anywhere in the tree. No other operator, and nothing but the tree, brings them in. -/
theorem shows_empty_list_iff (dialect : Dialect) (table : String) (columns : List String)
    (spec : Option (Spec Condition)) :
    Shows dialect.quote (make dialect table columns spec).sql.toList "()".toList ↔
      ∃ s ∈ spec, ∃ p ∈ s.leaves, p.ComparesEmpty := by
  rw [toList_sql_make]
  constructor
  · intro hshows
    by_contra hnone
    refine Filled.not_shows (Spec.filled_query table columns ?_) dialect 0 hshows
    intro p hp hempty
    cases spec with
    | none => exact absurd hp List.not_mem_nil
    | some s => exact hnone ⟨s, rfl, p, hp, hempty⟩
  · rintro ⟨s, hs, p, hp, hempty⟩
    cases hs
    obtain ⟨e, he, hlist⟩ := Predicate.infix_sql? hempty
    cases hroot : s.root with
    | none =>
      rw [Spec.leaves, hroot] at hp
      cases hp
    | some x =>
      rw [Spec.leaves, hroot] at hp
      obtain ⟨f, hf, hpiece⟩ := Condition.infix_expr? hp he
      have hquery := Spec.infix_query table columns (s := s) (e := f) (by rw [hroot]; exact hf)
      exact shows_of_piece dialect 0 (hlist.trans (hpiece.trans hquery))

/-- A field that is to be equal to an empty list is written before empty parentheses. -/
theorem shows_empty_list_of_equal :
    let spec : Spec Condition := { root := some (.leaf ⟨.equal, "a", .list []⟩) }
    (make .postgres "t" [] (some spec)).sql = "SELECT * FROM \"t\" WHERE (\"a\" = ())" ∧
      Shows '"' (make .postgres "t" [] (some spec)).sql.toList "()".toList := by
  have hsql : (make .postgres "t" []
      (some { root := some (.leaf ⟨.equal, "a", .list []⟩) })).sql =
        "SELECT * FROM \"t\" WHERE (\"a\" = ())" := by decide +kernel
  refine ⟨hsql, ?_⟩
  rw [hsql]
  exact ⟨"SELECT * FROM \"t\" WHERE (\"a\" = ".toList, [')'], rfl, by decide +kernel⟩

end Selection

end FilterQuery
