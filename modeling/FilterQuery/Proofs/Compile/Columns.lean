import FilterQuery.Proofs.Compile.Parameters
import FilterQuery.Proofs.Sql.Names
import FilterQuery.Proofs.Sql.Shown
import FilterQuery.Proofs.Text.Blank
import FilterQuery.Proofs.Text.Lines

/-!
# The list of columns

A query begins with an entry for each column that is asked for. Names that are trimmed and have no
comma make entries without one, so the entries are what the commas part.
-/
namespace FilterQuery.Sql

/-- A name that can stand in a list: trimmed, visible and without a comma. -/
structure Listable (column : String) : Prop where
  trimmed : Text.Trimmed column.toList
  visible : ¬ Text.Blank column.toList
  commaless : ',' ∉ column.toList

theorem listable_star : Listable "*" := by
  have hstar : "*".toList = ['*'] := rfl
  refine ⟨⟨?_, ?_⟩, ?_, ?_⟩
  · rw [hstar]
    rintro c ⟨⟩
    rfl
  · rw [hstar]
    rintro c ⟨⟩
    rfl
  · decide
  · rw [hstar]
    simp

/-- An entry of a list of columns: a star stands as it is, names stand between quotes. -/
inductive Listed (d : Dialect) : String → List Char → Prop where
  | all : Listed d "*" ['*']
  | alone {column : String} (named : column ≠ "*") (whole : ColumnName.parse column = ⟨none, column⟩) :
      Listed d column (d.quoted column)
  | within {column qualifier name : String} (named : column ≠ "*")
      (parts : ColumnName.parse column = ⟨some qualifier, name⟩) :
      Listed d column (d.quoted qualifier ++ '.' :: d.quoted name)

/-- A query begins with a list of columns: an entry for each, and no comma but those between two
entries. -/
structure ListsColumns (d : Dialect) (columns : List String) (entries : List (List Char))
    (sql : String) : Prop where
  listed : List.Forall₂ (Listed d) columns entries
  nonempty : entries ≠ []
  commaless : ∀ entry ∈ entries, ',' ∉ entry
  text : ∃ rest, sql.toList =
    "SELECT ".toList ++ ", ".toList.intercalate entries ++ " FROM ".toList ++ rest

theorem listed_column (d : Dialect) {column : String} (h : Text.Trimmed column.toList) :
    Listed d column (write d 0 (Draft.column column).tokens) := by
  by_cases hstar : column = "*"
  · subst hstar
    exact .all
  · rw [Draft.column, h.trim_eq, if_neg hstar, Expr.named, Expr.tokens]
    rcases ColumnName.parse_cases column with hwhole | ⟨qualifier, name, _, _, _, _, hparts⟩
    · have hlisted := Listed.alone (d := d) hstar hwhole
      simpa [hwhole, dotted, write] using hlisted
    · have hlisted := Listed.within (d := d) hstar hparts
      simpa [hparts, dotted, write, Word.text] using hlisted

theorem Listed.commaless {d : Dialect} {column : String} {entry : List Char}
    (h : Listed d column entry) (hcolumn : ',' ∉ column.toList) : ',' ∉ entry := by
  have hquoted : ∀ name : String, ',' ∈ d.quoted name ↔ ',' ∈ name.toList := by
    intro name
    have hquote : ',' ≠ d.quote := by cases d <;> decide
    simp [Dialect.quoted, Text.enclose, Text.mem_double_iff hquote, hquote]
  cases h with
  | all => decide
  | alone _ _ => exact (hquoted column).not.mpr hcolumn
  | within _ hparts =>
    have hjoined := ColumnName.joined_parse column
    rw [hparts, Sql.joined] at hjoined
    rw [← hjoined] at hcolumn
    simp only [String.toList_append, List.mem_append, not_or] at hcolumn
    simp [hquoted, hcolumn]

theorem write_columnTokens (d : Dialect) {columns : List String} (h : columns ≠ []) :
    write d 0 (Select.columnTokens (columns.map Draft.column)) =
      ", ".toList.intercalate
        (columns.map fun column => write d 0 (Draft.column column).tokens) := by
  have hbound : ∀ ts ∈ (columns.map Draft.column).map Expr.tokens, boundValues ts = [] := by
    rw [List.forall_mem_map, List.forall_mem_map]
    exact fun column _ => by rw [Expr.boundValues_tokens, Draft.values_column]
  rw [Select.columnTokens, if_neg (by simpa using h), write_separated d 0 hbound]
  simp only [List.map_map, Function.comp_def]

/-- A query begins with its columns and its table. -/
theorem exists_tokens_query (table : String) (columns : List String) (s : Spec Condition) :
    ∃ others, (s.query table columns).tokens =
      .word .select :: (Select.columnTokens (columns.map Draft.column) ++ .word .source :: others) := by
  rw [Select.tokens_eq]
  simp only [Spec.query, Select.sourceTokens, Source.tokens, List.append_assoc, List.cons_append]
  exact ⟨_, rfl⟩

theorem listsColumns_make (d : Dialect) {columns : List String} (hnonempty : columns ≠ [])
    (hcolumns : ∀ column ∈ columns, Listable column) (table : String)
    (spec : Option (Spec Condition)) :
    ∃ entries, ListsColumns d columns entries (Selection.make d table columns spec).sql := by
  refine ⟨columns.map fun column => write d 0 (Draft.column column).tokens, ?_, ?_, ?_, ?_⟩
  · rw [List.forall₂_map_right_iff, List.forall₂_same]
    exact fun column hcolumn => listed_column d (hcolumns column hcolumn).trimmed
  · simpa using hnonempty
  · rw [List.forall_mem_map]
    exact fun column hcolumn =>
      (listed_column d (hcolumns column hcolumn).trimmed).commaless (hcolumns column hcolumn).commaless
  · obtain ⟨others, htokens⟩ := exists_tokens_query table columns (spec.getD {})
    refine ⟨write d (0 + (boundValues (Select.columnTokens (columns.map Draft.column))).length)
      others, ?_⟩
    rw [Selection.toList_sql_make, htokens, write, write_append, write_columnTokens d hnonempty,
      write, ← List.append_assoc, ← List.append_assoc]
    rfl

end FilterQuery.Sql
