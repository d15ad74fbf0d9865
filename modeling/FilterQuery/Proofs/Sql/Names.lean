import FilterQuery.Compile.Selection
import FilterQuery.Proofs.Sql.Input

/-!
# Names in queries

A name is cut at a dot and its parts are quoted apart. Neither step loses anything, so no two names
have one text. A column is cut at its last dot and a table at its first, so a column that is
qualified by the name of a table in a schema has another text than the table itself.
-/
namespace FilterQuery

namespace Sql

/-- A part and a name with a dot between them, or a name alone. -/
def joined (part : Option String) (name : String) : String :=
  match part with
  | some part => part ++ "." ++ name
  | none => name

/-- The text of a part and a name, or of a name alone. -/
def dottedText (d : Dialect) (part : Option String) (name : String) : List Char :=
  write d 0 (dotted part name)

/-- A name is written alike wherever it stands. -/
theorem text_add_dotted (d : Dialect) (o : Output) (part : Option String) (name : String) :
    (o.add d (dotted part name)).text = o.text ++ dottedText d part name := by
  cases part <;> rfl

/-- The text of a name gives both of its parts back. -/
theorem dottedText_inj {d : Dialect} {part part' : Option String} {name name' : String}
    (h : dottedText d part name = dottedText d part' name') : part = part' ∧ name = name' := by
  have hread : ∀ (p : Option String) (n : String),
      Input.dotted d ⟨dottedText d p n, [], 0⟩ = some ((p, n), Input.ofTokens d 0 []) := by
    intro p n
    have hclear : clear .dot [] = true := rfl
    have hdotted := Input.dotted_dotted d 0 hclear p n
    rwa [List.append_nil, Input.ofTokens, boundValues_dotted] at hdotted
  have hparts := hread part name
  rw [h, hread part' name'] at hparts
  cases hparts
  exact ⟨rfl, rfl⟩

end Sql

namespace ColumnName

def text (d : Dialect) (c : ColumnName) : List Char := Sql.dottedText d c.qualifier c.name

theorem parse_dotted {qualifier name : String} (hqualifier : qualifier ≠ "") (hname : name ≠ "")
    (hdot : '.' ∉ name.toList) :
    parse (qualifier ++ "." ++ name) = ⟨some qualifier, name⟩ := by
  have hcut : Text.cutLast '.' (qualifier ++ "." ++ name).toList =
      some (qualifier.toList, name.toList) := by
    have htext : (qualifier ++ "." ++ name).toList = qualifier.toList ++ '.' :: name.toList := by
      simp
    rw [htext, Text.cutLast_append hdot]
  rw [parse, hcut]
  simp [hqualifier, hname]

/-- A name is cut at its last dot, unless nothing stands on one of its sides. -/
theorem parse_cases (s : String) :
    parse s = ⟨none, s⟩ ∨
      ∃ qualifier name, qualifier ≠ "" ∧ name ≠ "" ∧ '.' ∉ name.toList ∧
        s = qualifier ++ "." ++ name ∧ parse s = ⟨some qualifier, name⟩ := by
  unfold parse
  cases hcut : Text.cutLast '.' s.toList with
  | none => exact .inl rfl
  | some parts =>
    obtain ⟨before, after⟩ := parts
    by_cases hempty : (before.isEmpty || after.isEmpty) = true
    · exact .inl (if_pos hempty)
    · have hs : s = String.ofList before ++ "." ++ String.ofList after := by
        rw [← String.toList_inj]
        simpa using Text.eq_append_of_cutLast hcut
      simp only [Bool.or_eq_true, List.isEmpty_iff, not_or] at hempty
      refine .inr ⟨String.ofList before, String.ofList after, ?_, ?_, ?_, hs, ?_⟩
      · simpa using hempty.1
      · simpa using hempty.2
      · simpa using Text.not_mem_of_cutLast hcut
      · simp [hempty.1, hempty.2]

theorem parse_eq_dotted_iff {s qualifier name : String} :
    parse s = ⟨some qualifier, name⟩ ↔
      qualifier ≠ "" ∧ name ≠ "" ∧ '.' ∉ name.toList ∧ s = qualifier ++ "." ++ name := by
  constructor
  · intro h
    rcases parse_cases s with hwhole | ⟨_, _, hqualifier, hname, hdot, hs, hparts⟩
    · rw [hwhole] at h
      cases h
    · rw [hparts] at h
      cases h
      exact ⟨hqualifier, hname, hdot, hs⟩
  · rintro ⟨hqualifier, hname, hdot, rfl⟩
    exact parse_dotted hqualifier hname hdot

theorem joined_parse (s : String) : Sql.joined (parse s).qualifier (parse s).name = s := by
  rcases parse_cases s with h | ⟨qualifier, name, _, _, _, hs, h⟩
  · rw [h, Sql.joined]
  · rw [h, Sql.joined, ← hs]

theorem render_named (d : Dialect) (o : Sql.Output) (s : String) :
    ((Expr.named s).render d o).text = o.text ++ (parse s).text d := Sql.text_add_dotted d o _ _

end ColumnName

namespace TableName

def text (d : Dialect) (t : TableName) : List Char := Sql.dottedText d t.schema t.name

theorem parse_dotted {schema name : String} (hdot : '.' ∉ schema.toList) :
    parse (schema ++ "." ++ name) = ⟨some schema, name⟩ := by
  have hcut : Text.cutFirst '.' (schema ++ "." ++ name).toList =
      some (schema.toList, name.toList) := by
    have htext : (schema ++ "." ++ name).toList = schema.toList ++ '.' :: name.toList := by simp
    rw [htext, Text.cutFirst_append hdot]
  rw [parse, hcut]
  simp

theorem parse_of_not_mem {s : String} (h : '.' ∉ s.toList) : parse s = ⟨none, s⟩ := by
  simp [parse, Text.cutFirst_eq_none_iff.mpr h]

/-- A name is cut at its first dot. -/
theorem parse_cases (s : String) :
    '.' ∉ s.toList ∧ parse s = ⟨none, s⟩ ∨
      ∃ schema name, '.' ∉ schema.toList ∧ s = schema ++ "." ++ name ∧
        parse s = ⟨some schema, name⟩ := by
  cases hcut : Text.cutFirst '.' s.toList with
  | none =>
    have hdotless := Text.cutFirst_eq_none_iff.mp hcut
    exact .inl ⟨hdotless, parse_of_not_mem hdotless⟩
  | some parts =>
    obtain ⟨before, after⟩ := parts
    have hs : s = String.ofList before ++ "." ++ String.ofList after := by
      rw [← String.toList_inj]
      simpa using Text.eq_append_of_cutFirst hcut
    have hdot : '.' ∉ (String.ofList before).toList := by
      simpa using Text.not_mem_of_cutFirst hcut
    exact .inr ⟨_, _, hdot, hs, hs ▸ parse_dotted hdot⟩

theorem parse_eq_dotted_iff {s schema name : String} :
    parse s = ⟨some schema, name⟩ ↔ '.' ∉ schema.toList ∧ s = schema ++ "." ++ name := by
  constructor
  · intro h
    rcases parse_cases s with ⟨_, hwhole⟩ | ⟨_, _, hdot, hs, hparts⟩
    · rw [hwhole] at h
      cases h
    · rw [hparts] at h
      cases h
      exact ⟨hdot, hs⟩
  · rintro ⟨hdot, rfl⟩
    exact parse_dotted hdot

theorem joined_parse (s : String) : Sql.joined (parse s).schema (parse s).name = s := by
  rcases parse_cases s with ⟨_, h⟩ | ⟨schema, name, _, hs, h⟩
  · rw [h, Sql.joined]
  · rw [h, Sql.joined, ← hs]

theorem add_source (d : Dialect) (o : Sql.Output) (t : TableName) :
    (o.add d (Source.tokens ⟨t, none⟩)).text = o.text ++ Sql.Word.source.text.toList ++ t.text d := by
  have htokens : Source.tokens ⟨t, none⟩ = .word .source :: Sql.dotted t.schema t.name := by
    simp [Source.tokens]
  rw [htokens, Sql.Output.add_word, Sql.text_add_dotted]
  rfl

end TableName

/-- Names are cut without loss, a column at its last dot and a table at its first, and no two names
have one text. -/
theorem names_apart :
    (∀ s, Sql.joined (ColumnName.parse s).qualifier (ColumnName.parse s).name = s ∧
      ∀ qualifier name, ColumnName.parse s = ⟨some qualifier, name⟩ ↔
        qualifier ≠ "" ∧ name ≠ "" ∧ '.' ∉ name.toList ∧ s = qualifier ++ "." ++ name) ∧
    (∀ s, Sql.joined (TableName.parse s).schema (TableName.parse s).name = s ∧
      ∀ schema name, TableName.parse s = ⟨some schema, name⟩ ↔
        '.' ∉ schema.toList ∧ s = schema ++ "." ++ name) ∧
    ∀ (d : Dialect) (o : Sql.Output),
      Function.Injective (fun s => ((Expr.named s).render d o).sql) ∧
      Function.Injective (fun s => (o.add d (Source.tokens ⟨TableName.parse s, none⟩)).sql) := by
  refine ⟨fun s => ⟨ColumnName.joined_parse s, fun _ _ => ColumnName.parse_eq_dotted_iff⟩,
    fun s => ⟨TableName.joined_parse s, fun _ _ => TableName.parse_eq_dotted_iff⟩, fun d o => ⟨?_, ?_⟩⟩
  · intro s t h
    have htext := String.ofList_injective h
    rw [ColumnName.render_named, ColumnName.render_named, List.append_cancel_left_eq] at htext
    obtain ⟨hqualifier, hname⟩ := Sql.dottedText_inj htext
    rw [← ColumnName.joined_parse s, ← ColumnName.joined_parse t, hqualifier, hname]
  · intro s t h
    have htext := String.ofList_injective h
    rw [TableName.add_source, TableName.add_source, List.append_cancel_left_eq] at htext
    obtain ⟨hschema, hname⟩ := Sql.dottedText_inj htext
    rw [← TableName.joined_parse s, ← TableName.joined_parse t, hschema, hname]

/-- A table by its name alone or within a schema; no part is empty, and none has a dot. -/
inductive TableName.Spelled : String → TableName → Prop where
  | alone {name : String} (some : name ≠ "") (dotless : '.' ∉ name.toList) :
      Spelled name ⟨none, name⟩
  | within {schema name : String} (someSchema : schema ≠ "") (dotlessSchema : '.' ∉ schema.toList)
      (some : name ≠ "") (dotless : '.' ∉ name.toList) :
      Spelled (schema ++ "." ++ name) ⟨Option.some schema, name⟩

theorem TableName.Spelled.ne_empty {s : String} {t : TableName} (h : Spelled s t) : s ≠ "" := by
  cases h with
  | alone some dotless => exact some
  | within someSchema dotlessSchema some dotless => simp

theorem TableName.Spelled.parse_eq {s : String} {t : TableName} (h : Spelled s t) :
    TableName.parse s = t := by
  cases h with
  | alone some dotless => exact parse_of_not_mem dotless
  | within someSchema dotlessSchema some dotless => exact parse_dotted dotlessSchema

/-- A dot after a quoted name ends it. -/
theorem Dialect.quoted_dot_inj {d : Dialect} {s t : String} {cs ds : List Char}
    (h : d.quoted s ++ '.' :: cs = d.quoted t ++ '.' :: ds) : s = t ∧ cs = ds := by
  have hdot : ∀ rest : List Char, ('.' :: rest).head? ≠ some d.quote := by
    intro rest
    cases d <;> simp [quote]
  simp only [quoted, Text.enclose, List.cons_append, List.append_assoc, List.nil_append,
    List.cons.injEq, true_and] at h
  obtain ⟨hname, hrest⟩ := Text.double_append_inj (hdot cs) (hdot ds) h
  exact ⟨String.toList_inj.mp hname, (List.cons.inj hrest).2⟩

/-- A column that is qualified by a table has the whole name of the table for one qualifier. This is
written as the table itself just where the table lies in no schema: a schema is quoted apart. -/
theorem render_column_of_table_iff {s c : String} {t : TableName} (ht : TableName.Spelled s t)
    (hc : c ≠ "") (hdot : '.' ∉ c.toList) (d : Dialect) (o : Sql.Output) :
    TableName.parse s = t ∧
    ((Expr.named (s ++ "." ++ c)).render d o).text =
      o.text ++ d.quoted s ++ '.' :: d.quoted c ∧
    (((Expr.named (s ++ "." ++ c)).render d o).text =
      (o.add d (Sql.dotted t.schema t.name)).text ++ '.' :: d.quoted c ↔ t.schema = none) := by
  have hcolumn : (ColumnName.parse (s ++ "." ++ c)).text d = d.quoted s ++ '.' :: d.quoted c := by
    rw [ColumnName.parse_dotted ht.ne_empty hc hdot]
    simp [ColumnName.text, Sql.dottedText, Sql.dotted, Sql.write, Sql.Word.text]
  refine ⟨ht.parse_eq, ?_, ?_⟩
  · rw [ColumnName.render_named, hcolumn, List.append_assoc]
  rw [ColumnName.render_named, hcolumn, Sql.text_add_dotted, List.append_assoc,
    List.append_cancel_left_eq]
  cases ht with
  | alone some dotless => simp [Sql.dottedText, Sql.dotted, Sql.write]
  | @within schema name _ dotlessSchema _ _ =>
    refine iff_of_false (fun h => ?_) (by simp)
    have htable : Sql.dottedText d (some schema) name ++ '.' :: d.quoted c =
        d.quoted schema ++ '.' :: (d.quoted name ++ '.' :: d.quoted c) := by
      simp [Sql.dottedText, Sql.dotted, Sql.write, Sql.Word.text]
    rw [htable] at h
    have hschema : '.' ∈ schema.toList := by
      rw [← (Dialect.quoted_dot_inj h).1]
      simp
    exact dotlessSchema hschema

theorem spelled_shop_orders : TableName.Spelled ("shop" ++ "." ++ "orders") ⟨some "shop", "orders"⟩ :=
  .within (by decide) (by decide) (by decide) (by decide)

theorem render_column_of_orders :
    ((Expr.named ("orders" ++ "." ++ "id")).render .mysql {}).text =
        (Sql.Output.add .mysql {} (Sql.dotted none "orders")).text ++
          '.' :: Dialect.mysql.quoted "id" ∧
      ((Expr.named ("shop" ++ "." ++ "orders" ++ "." ++ "id")).render .mysql {}).text =
        Dialect.mysql.quoted "shop.orders" ++ '.' :: Dialect.mysql.quoted "id" := by
  have halone : TableName.Spelled "orders" ⟨none, "orders"⟩ := .alone (by decide) (by decide)
  have hid : "id" ≠ "" ∧ '.' ∉ "id".toList := by decide
  exact ⟨(render_column_of_table_iff halone hid.1 hid.2 .mysql {}).2.2.mpr rfl,
    (render_column_of_table_iff spelled_shop_orders hid.1 hid.2 .mysql {}).2.1⟩

/-- A table in a schema is selected from under two names, and its column is looked up under one. -/
theorem make_column_of_shop_orders :
    TableName.Spelled "shop.orders" ⟨some "shop", "orders"⟩ ∧ "id" ≠ "" ∧ '.' ∉ "id".toList ∧
      ((Expr.named "shop.orders.id").render .postgres {}).text ≠
        (Sql.Output.add .postgres {} (Sql.dotted (some "shop") "orders")).text ++
          '.' :: Dialect.postgres.quoted "id" ∧
      (Selection.make .postgres "shop.orders" ["shop.orders.id"] none).sql =
        "SELECT \"shop.orders\".\"id\" FROM \"shop\".\"orders\"" := by
  refine ⟨spelled_shop_orders, by decide, by decide, by decide +kernel, by decide +kernel⟩

end FilterQuery
