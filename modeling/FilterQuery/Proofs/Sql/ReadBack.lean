import FilterQuery.Proofs.Sql.ReadExpr

/-!
# Reading a query back

A rendered query is read back from its text and its parameters, up to what the text leaves out: the
expression that is tested for membership in the empty list, and whether all columns were asked for
by a star or by naming none. So the text and the parameters determine the query.
-/
namespace FilterQuery

open Sql

def OrderItem.normal (o : OrderItem) : OrderItem := ⟨o.expr.normal, o.direction⟩

/-- The query with one spelling for all memberships in the empty list, and a star if it names no
columns. -/
def Select.normal (s : Select) : Select where
  columns := if s.columns.isEmpty then [.wildcard] else s.columns.map Expr.normal
  source := s.source
  condition := s.condition.map Expr.normal
  order := s.order.map OrderItem.normal
  limit := s.limit.map Expr.normal
  offset := s.offset.map Expr.normal

theorem OrderItem.tokens_normal (o : OrderItem) : o.normal.tokens = o.tokens := by
  rw [normal, tokens, tokens, Expr.tokens_normal]

namespace Select

theorem clause_normal (w : Word) (e : Option Expr) :
    clause w (e.map Expr.normal) = clause w e := by
  cases e with
  | none => rfl
  | some e => rw [Option.map_some, clause, clause, Expr.tokens_normal]

theorem tokens_normal (s : Select) : s.normal.tokens = s.tokens := by
  have hcolumns : columnTokens s.normal.columns = columnTokens s.columns := by
    rw [normal, columnTokens, columnTokens]
    cases s.columns with
    | nil => rfl
    | cons e es => simp [Function.comp_def, Expr.tokens_normal]
  have horder : orderTokens s.normal.order = orderTokens s.order := by
    rw [normal, orderTokens, orderTokens, List.isEmpty_map, List.map_map]
    simp [Function.comp_def, OrderItem.tokens_normal]
  rw [tokens_eq, tokens_eq, hcolumns, horder]
  simp only [normal, clause_normal]

end Select

namespace Sql

variable {d : Dialect} {size : Nat} {ts : List Token}

def readSource (d : Dialect) (i : Input) : Option (Source × Input) := do
  let ((schema, table), i) ← i.dotted d
  let (label, i) ← i.clause .label (Input.name d)
  some (⟨⟨schema, table⟩, label⟩, i)

def readDirection (i : Input) : Option Direction × Input :=
  match i.oneOf [.direction .ascending, .direction .descending] with
  | some (.direction direction, i) => (some direction, i)
  | _ => (none, i)

def readOrderItem (d : Dialect) (size : Nat) (i : Input) : Option (OrderItem × Input) :=
  (readExpr d size i).map fun (e, i) => (⟨e, (readDirection i).1⟩, (readDirection i).2)

/-- Reads a query from its text and its parameters. The number bounds the size of the query. -/
def readSelect (d : Dialect) (size : Nat) (i : Input) : Option Select := do
  let i ← i.skip .select
  let (columns, i) ← i.several (readExpr d size) size
  let (source, i) ← i.clause .source (readSource d)
  let (condition, i) ← i.clause .condition (readExpr d size)
  let (order, i) ← i.clause .order (Input.several (readOrderItem d size) size)
  let (limit, i) ← i.clause .limit (readExpr d size)
  let (offset, i) ← i.clause .offset (readExpr d size)
  if i.text.isEmpty then some ⟨columns, source, condition, order.getD [], limit, offset⟩ else none

/-- Nothing follows, or one of these words does. -/
def Begins (ws : List Word) (ts : List Token) : Prop :=
  ts = [] ∨ ∃ w ∈ ws, ∃ rest, ts = .word w :: rest

theorem Begins.apart {ws vs : List Word} (h : Begins ws ts)
    (hvs : ∀ a ∈ ws, ∀ w ∈ vs, w.comparable a = false) : apart vs ts := by
  rcases h with rfl | ⟨a, ha, rest, rfl⟩
  · intro w _
    rfl
  · exact apart_word (hvs a ha) rest

theorem Begins.mono {ws vs : List Word} (h : Begins ws ts) (hsub : ws ⊆ vs) : Begins vs ts := by
  rcases h with rfl | ⟨a, ha, rest, rfl⟩
  · exact Or.inl rfl
  · exact Or.inr ⟨a, hsub ha, rest, rfl⟩

theorem begins_clause {ws : List Word} (w : Word) (e : Option Expr) (h : Begins ws ts) :
    Begins (w :: ws) (Select.clause w e ++ ts) := by
  cases e with
  | none => exact h.mono (List.subset_cons_self w ws)
  | some e => exact Or.inr ⟨w, List.mem_cons_self, _, rfl⟩

theorem begins_order {ws : List Word} (order : List OrderItem) (h : Begins ws ts) :
    Begins (.order :: ws) (Select.orderTokens order ++ ts) := by
  cases order with
  | nil => exact h.mono (List.subset_cons_self _ ws)
  | cons o os => exact Or.inr ⟨.order, List.mem_cons_self, _, rfl⟩

theorem begins_source {ws : List Word} (source : Option Source) (h : Begins ws ts) :
    Begins (.source :: ws) (Select.sourceTokens source ++ ts) := by
  cases source with
  | none => exact h.mono (List.subset_cons_self _ ws)
  | some source => exact Or.inr ⟨.source, List.mem_cons_self, _, rfl⟩

theorem readClause_clause (w : Word) {e : Option Expr} (hsize : sizeOf e ≤ size) :
    Input.Reads d (Input.clause w (readExpr d size)) (Select.clause w e) (e.map Expr.normal)
      [w, .dot] := by
  cases e with
  | none => exact Input.clause_none _ w [.dot]
  | some e =>
    rw [Option.some.sizeOf_spec] at hsize
    exact Input.clause_some (readExpr_tokens (by omega)) w

theorem readSource_sourceTokens (source : Option Source) :
    Input.Reads d (Input.clause .source (readSource d)) (Select.sourceTokens source) source
      [.source, .label, .dot] := by
  rcases source with _ | ⟨⟨schema, table⟩, label⟩
  · exact Input.clause_none _ .source _
  · refine Input.clause_some ?_ .source
    intro count ts hts
    obtain ⟨hlabel, hdot⟩ := apart_cons.mp hts
    have hdot := (apart_cons.mp hdot).1
    refine ⟨count, ?_⟩
    cases label with
    | none =>
      have hdotted := Input.dotted_dotted d count hdot schema table
      simp [readSource, hdotted, Input.clause, Input.skip_eq_none hlabel]
    | some label =>
      have hname := Input.name_name d count hdot label
      have hword : clear .dot (.word .label :: .name label :: ts) = true := rfl
      have hdotted := Input.dotted_dotted d count hword schema table
      simp [readSource, hdotted, Input.clause, hname]

/-- The words of a direction are told apart from each other and from what may follow them. -/
theorem readDirection_tokens (direction : Option Direction) (count : Nat)
    (h : apart [.direction .ascending, .direction .descending] ts) :
    readDirection (.ofTokens d count
      ((direction.map fun d => Token.word (.direction d)).toList ++ ts)) =
      (direction, .ofTokens d count ts) := by
  cases direction with
  | none => simp [readDirection, Input.oneOf_eq_none h]
  | some direction =>
    have hother : ∀ a ∈ [Word.direction .ascending, .direction .descending],
        a ≠ .direction direction → a.comparable (.direction direction) = false := by
      cases direction <;> decide
    have hmem : .direction direction ∈ [Word.direction .ascending, .direction .descending] := by
      cases direction <;> decide
    simp [readDirection, Input.oneOf_word hmem hother]

theorem readOrderItem_tokens {o : OrderItem} (hsize : sizeOf o ≤ size) :
    Input.Reads d (readOrderItem d size) o.tokens o.normal
      [.dot, .direction .ascending, .direction .descending] := by
  obtain ⟨e, direction⟩ := o
  rw [OrderItem.mk.sizeOf_spec] at hsize
  intro count ts hts
  obtain ⟨hdot, hdirection⟩ := apart_cons.mp hts
  have hend : apart [.dot] ((direction.map fun d => Token.word (.direction d)).toList ++ ts) := by
    rcases direction with _ | direction
    · exact apart_cons.mpr ⟨hdot, by simp [apart]⟩
    · exact apart_word (by cases direction <;> decide) ts
  have hexpr : sizeOf e ≤ size := by omega
  obtain ⟨n, he⟩ := readExpr_tokens (d := d) hexpr count _ hend
  refine ⟨n, ?_⟩
  rw [OrderItem.tokens, List.append_assoc, readOrderItem, he, Option.map_some]
  simp only [readDirection_tokens direction n hdirection, OrderItem.normal]

theorem readOrder_orderTokens {order : List OrderItem} (hsize : sizeOf order ≤ size) :
    ∃ read, Input.Reads d (Input.clause .order (Input.several (readOrderItem d size) size))
      (Select.orderTokens order) read
      [.order, .comma, .dot, .direction .ascending, .direction .descending] ∧
      read.getD [] = order.map OrderItem.normal := by
  cases order with
  | nil => exact ⟨none, Input.clause_none _ .order _, rfl⟩
  | cons o os =>
    have hseveral := Input.several_of_sizeOf (d := d) (fun p hp => readOrderItem_tokens (o := p) hp)
      (by decide) (List.cons_ne_nil o os) hsize
    exact ⟨_, Input.clause_some hseveral .order, rfl⟩

/-- The star that stands for no columns is larger than no columns. -/
theorem readColumns_columnTokens {columns : List Expr} (hsize : sizeOf columns + 2 ≤ size) :
    Input.Reads d (Input.several (readExpr d size) size) (Select.columnTokens columns)
      (if columns.isEmpty then [.wildcard] else columns.map Expr.normal) [.comma, .dot] := by
  have hitems : ∀ {es : List Expr}, es ≠ [] → sizeOf es ≤ size →
      Input.Reads d (Input.several (readExpr d size) size) (separated (es.map Expr.tokens))
        (es.map Expr.normal) [.comma, .dot] := by
    intro es hne hes
    exact Input.several_of_sizeOf (fun e he => readExpr_tokens he) (by decide) hne hes
  cases columns with
  | nil =>
    refine hitems (List.cons_ne_nil .wildcard []) ?_
    rw [List.nil.sizeOf_spec] at hsize
    rw [List.cons.sizeOf_spec, List.nil.sizeOf_spec, Expr.wildcard.sizeOf_spec]
    omega
  | cons e es => exact hitems (List.cons_ne_nil e es) (by omega)

/-- Reading undoes rendering, up to what the text leaves out. -/
theorem readSelect_tokens (d : Dialect) {size : Nat} {s : Select} (hsize : sizeOf s ≤ size) :
    readSelect d size (.ofTokens d 0 s.tokens) = some s.normal := by
  obtain ⟨columns, source, condition, order, limit, offset⟩ := s
  rw [Select.mk.sizeOf_spec] at hsize
  have hpos : 1 ≤ sizeOf order := by
    cases order with
    | nil => exact Nat.le_refl 1
    | cons o os =>
      rw [List.cons.sizeOf_spec]
      omega
  have hcolumnsSize : sizeOf columns + 2 ≤ size := by omega
  have hconditionSize : sizeOf condition ≤ size := by omega
  have horderSize : sizeOf order ≤ size := by omega
  have hlimitSize : sizeOf limit ≤ size := by omega
  have hoffsetSize : sizeOf offset ≤ size := by omega
  -- What follows a clause begins with the word of a later one, or is nothing.
  have hend : Begins [] [] := Or.inl rfl
  have hoffset := begins_clause .offset offset hend
  rw [List.append_nil] at hoffset
  have hlimit := begins_clause .limit limit hoffset
  have horder := begins_order order hlimit
  have hcondition := begins_clause .condition condition horder
  have hsource := begins_source source hcondition
  obtain ⟨a, hcolumnsRead⟩ := readColumns_columnTokens (d := d) hcolumnsSize 0 _
    (hsource.apart (by decide))
  obtain ⟨b, hsourceRead⟩ := readSource_sourceTokens (d := d) source a _
    (hcondition.apart (by decide))
  obtain ⟨c, hconditionRead⟩ := readClause_clause (d := d) .condition hconditionSize b _
    (horder.apart (by decide))
  obtain ⟨keys, horderReads, hkeys⟩ := readOrder_orderTokens (d := d) horderSize
  obtain ⟨e, horderRead⟩ := horderReads c _ (hlimit.apart (by decide))
  obtain ⟨f, hlimitRead⟩ := readClause_clause (d := d) .limit hlimitSize e _
    (hoffset.apart (by decide))
  obtain ⟨g, hoffsetRead⟩ := readClause_clause (d := d) .offset hoffsetSize f _
    (hend.apart (by decide))
  rw [List.append_nil] at hoffsetRead
  simp only [Select.tokens_eq, List.append_assoc]
  rw [readSelect, Input.skip_word]
  simp only [Option.bind_eq_bind, Option.bind_some, hcolumnsRead, hsourceRead, hconditionRead,
    horderRead, hlimitRead, hoffsetRead, hkeys, Select.normal]
  rfl

/-- The text and the parameters of a query are those of another one just if the two agree but for
what is tested for membership in the empty list, and for the star that stands for no columns. No
name, whatever quotes and words are in it, reads as anything else. -/
theorem render_eq_iff (d : Dialect) (a b : Select) :
    ((a.render d {}).sql = (b.render d {}).sql ∧ (a.render d {}).params = (b.render d {}).params) ↔
      a.normal = b.normal := by
  have hrender : ∀ s : Select, s.render d {} = ⟨write d 0 s.tokens, boundValues s.tokens⟩ := by
    intro s
    simp [Select.render, Output.add]
  rw [hrender, hrender]
  constructor
  · rintro ⟨hsql, hparams⟩
    have htext : write d 0 a.tokens = write d 0 b.tokens := String.ofList_injective hsql
    have hvalues : boundValues a.tokens = boundValues b.tokens := hparams
    have ha := readSelect_tokens d (Nat.le_max_left (sizeOf a) (sizeOf b))
    have hb := readSelect_tokens d (Nat.le_max_right (sizeOf a) (sizeOf b))
    rw [Input.ofTokens, htext, hvalues] at ha
    exact Option.some.inj (ha.symm.trans hb)
  · intro h
    have htokens : a.tokens = b.tokens := by
      rw [← Select.tokens_normal a, h, Select.tokens_normal b]
    rw [htokens]
    exact ⟨rfl, rfl⟩

end Sql

end FilterQuery
