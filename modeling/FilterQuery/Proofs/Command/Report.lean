import FilterQuery.Command.Report
import FilterQuery.Compile.Selection
import FilterQuery.Proofs.Sql.Placeholders
import FilterQuery.Proofs.Text.Lines

/-!
# Lines of a report

Below the query a report has a comment for each parameter. Numbers, truth values and NULL have no
line feed, and a text keeps its own. Main statement: the comments are the further lines just where
no text parameter has a line feed, and a line that is no comment is a line of such a text.
-/
namespace FilterQuery

theorem feed_not_mem_digitChars (n : Nat) : '\n' ∉ digitChars n := by
  intro h
  have hdigit := Sql.isDigit_of_mem_digitChars h
  cases hdigit

theorem feed_not_mem_integerChars (i : Int) : '\n' ∉ integerChars i := by
  have hdigits := feed_not_mem_digitChars i.natAbs
  unfold integerChars
  split
  · simpa using hdigits
  · exact hdigits

namespace Layout

theorem feed_not_mem_placed {ds : List Char} (h : '\n' ∉ ds) (keepsPoint : Bool) (point : Int) :
    '\n' ∉ placed keepsPoint ds point := by
  have htake : '\n' ∉ ds.take point.toNat := fun hmem => h (List.mem_of_mem_take hmem)
  have hdrop : '\n' ∉ ds.drop point.toNat := fun hmem => h (List.mem_of_mem_drop hmem)
  unfold placed
  split
  · simp [h]
  · split
    · cases keepsPoint <;> simp [h]
    · simp [htake, hdrop]

theorem feed_not_mem_scientific {ds : List Char} (h : '\n' ∉ ds) (exponent : Int) :
    '\n' ∉ scientific ds exponent := by
  have htake : '\n' ∉ ds.take 1 := fun hmem => h (List.mem_of_mem_take hmem)
  have hdrop : '\n' ∉ ds.drop 1 := fun hmem => h (List.mem_of_mem_drop hmem)
  have hexponent := feed_not_mem_digitChars exponent.natAbs
  have hsign : '\n' ≠ if exponent < 0 then '-' else '+' := by split <;> decide
  unfold scientific
  cases hothers : ds.drop 1 with
  | nil => simp [htake, hexponent, hsign]
  | cons c cs =>
    rw [hothers, List.mem_cons, not_or] at hdrop
    simp [htake, hdrop, hexponent, hsign]

theorem feed_not_mem_text (l : Layout) (x : Float) : '\n' ∉ l.text x := by
  have hsign : '\n' ∉ if isNegative x then ['-'] else [] := by split <;> simp
  have hdecimal : ∀ d : Decimal, '\n' ∉ l.decimalText d := by
    intro d
    have hdigits := feed_not_mem_digitChars d.digits
    unfold decimalText
    split
    · exact feed_not_mem_placed hdigits _ _
    · exact feed_not_mem_scientific hdigits _
  rw [text]
  by_cases hnan : x.isNaN
  · rw [if_pos hnan]
    simp
  · rw [if_neg hnan]
    dsimp only
    by_cases hinf : x.isInf
    · rw [if_pos hinf]
      simp [hsign]
    · rw [if_neg hinf, List.mem_append, not_or]
      exact ⟨hsign, hdecimal _⟩

end Layout

namespace Scalar

/-- The characters of a text; other values have none of their own. -/
def characters : Scalar → List Char
  | text s => s.toList
  | _ => []

theorem count_display (v : Scalar) :
    v.display.toList.count '\n' = v.characters.count '\n' := by
  cases v with
  | null => rfl
  | bool b => cases b <;> rfl
  | int i =>
    rw [display, String.toList_ofList, List.count_eq_zero_of_not_mem (feed_not_mem_integerChars _)]
    rfl
  | float x =>
    rw [display, String.toList_ofList, List.count_eq_zero_of_not_mem (Layout.feed_not_mem_text _ x)]
    rfl
  | text s =>
    have hquote : '\n' ≠ '\x27' := by decide
    rw [display, String.toList_ofList, Text.enclose, List.count_cons_of_ne hquote.symm,
      List.count_append, Text.count_double hquote, List.count_singleton, characters]
    rfl

theorem not_mem_characters_iff {c : Char} {v : Scalar} :
    c ∉ v.characters ↔ ∀ s, v = .text s → c ∉ s.toList := by
  cases v with
  | text s => simp [characters]
  | null | bool _ | int _ | float _ => simp [characters]

/-- Quotes do not change how the later lines of a value begin. -/
theorem forall_later_lines_iff {beginning : List Char} (h : '\x27' ∉ beginning) (v : Scalar) :
    (∀ line ∈ (Text.lines v.display).tail, beginning <+: line) ↔
      ∀ s, v = .text s → ∀ line ∈ (Text.lines s).tail, beginning <+: line := by
  have hfeed : v.characters = [] → (Text.lines v.display).tail = [] := by
    intro hnone
    have hcount := v.count_display
    rw [hnone, List.count_nil, List.count_eq_zero] at hcount
    rw [Text.lines, List.splitOn_eq_singleton hcount, List.tail_cons]
  cases v with
  | text s =>
    have hquote : '\n' ∉ ['\x27'] := by decide
    rw [Text.lines, display, String.toList_ofList, Text.enclose, ← List.singleton_append,
      Text.tail_splitOn_append hquote, Text.forall_mem_tail_splitOn_concat (by decide) h,
      Text.splitOn_double (by decide), ← List.map_tail, List.forall_mem_map]
    simp only [Text.prefix_double_iff h, text.injEq, forall_eq', Text.lines]
  | null | bool _ | int _ | float _ => simp [hfeed rfl]

end Scalar

namespace Command.CompiledQuery

/-- Begins a comment of SQL, which goes up to the end of the line. -/
def commentSign : List Char := "-- ".toList

/-- The comment on the parameter of a number. -/
def comment (number : Nat) (v : Scalar) : List Char :=
  commentSign ++ '$' :: digitChars number ++ ": ".toList ++ v.display.toList

/-- The comments on the parameters, which are counted from one. -/
def comments (q : CompiledQuery) : List (List Char) :=
  (q.params.zipIdx 1).map fun p => comment p.2 p.1

theorem toList_paramLines (n : Nat) (vs : List Scalar) :
    (paramLines n vs).toList =
      ((vs.zipIdx n).map fun p => comment p.2 p.1).flatMap ('\n' :: ·) := by
  induction vs generalizing n with
  | nil => rfl
  | cons v vs ih =>
    rw [paramLines, List.zipIdx_cons, List.map_cons, List.flatMap_cons, ← ih (n + 1)]
    simp [comment, commentSign]

theorem toList_text (q : CompiledQuery) :
    q.text.toList = q.sql.toList ++ q.comments.flatMap ('\n' :: ·) := by
  rw [text, String.toList_append, toList_paramLines, comments]

theorem lines_text (q : CompiledQuery) :
    Text.lines q.text = Text.lines q.sql ++ q.comments.flatMap (List.splitOn '\n') := by
  rw [Text.lines, toList_text, Text.splitOn_append_flatMap, Text.lines]

/-- A property of comments that depends on texts alone. -/
theorem forall_mem_comments {P : List Char → Prop} {R : String → Prop}
    (h : ∀ n v, P (comment n v) ↔ ∀ s, v = .text s → R s) (q : CompiledQuery) :
    (∀ c ∈ q.comments, P c) ↔ ∀ s, Scalar.text s ∈ q.params → R s := by
  calc (∀ c ∈ q.comments, P c)
      ↔ ∀ p ∈ q.params.zipIdx 1, ∀ s, p.1 = .text s → R s := by
        rw [comments, List.forall_mem_map]
        exact forall₂_congr fun p _ => h p.2 p.1
    _ ↔ ∀ v ∈ q.params, ∀ s, v = .text s → R s := by
        rw [← List.zipIdx_map_fst 1 q.params, List.forall_mem_map, List.zipIdx_map_fst]
    _ ↔ ∀ s, Scalar.text s ∈ q.params → R s :=
        ⟨fun hall s hs => hall _ hs s rfl, fun hall v hv s hs => hall s (hs ▸ hv)⟩

theorem count_comment (n : Nat) (v : Scalar) :
    (comment n v).count '\n' = v.characters.count '\n' := by
  have hnumber : (digitChars n).count '\n' = 0 :=
    List.count_eq_zero_of_not_mem (feed_not_mem_digitChars n)
  simp [comment, commentSign, hnumber, Scalar.count_display]

theorem feed_not_mem_comment_iff (n : Nat) (v : Scalar) :
    '\n' ∉ comment n v ↔ ∀ s, v = .text s → '\n' ∉ s.toList := by
  rw [← List.count_eq_zero, count_comment, List.count_eq_zero, Scalar.not_mem_characters_iff]

/-- A line of a comment that begins no comment is a later line of a text. -/
theorem forall_lines_comment_iff (n : Nat) (v : Scalar) :
    (∀ line ∈ (comment n v).splitOn '\n', commentSign <+: line) ↔
      ∀ s, v = .text s → ∀ line ∈ (Text.lines s).tail, commentSign <+: line := by
  have hopening : '\n' ∉ commentSign ++ '$' :: digitChars n ++ ": ".toList := by
    simp [commentSign, feed_not_mem_digitChars]
  obtain ⟨first, rest, hdisplay, hcomment⟩ :=
    Text.splitOn_append_of_not_mem hopening v.display.toList
  have hfirst : commentSign <+: commentSign ++ '$' :: digitChars n ++ ": ".toList ++ first := by
    simp only [List.append_assoc]
    exact List.prefix_append _ _
  calc (∀ line ∈ (comment n v).splitOn '\n', commentSign <+: line)
      ↔ ∀ line ∈ (v.display.toList.splitOn '\n').tail, commentSign <+: line := by
        rw [comment, hcomment, List.forall_mem_cons, and_iff_right hfirst, hdisplay, List.tail_cons]
    _ ↔ ∀ s, v = .text s → ∀ line ∈ (Text.lines s).tail, commentSign <+: line :=
        v.forall_later_lines_iff (by decide)

theorem count_text (q : CompiledQuery) :
    q.text.toList.count '\n' =
      q.sql.toList.count '\n' + q.params.length + (q.params.flatMap Scalar.characters).count '\n' := by
  have hparams : ∀ (vs : List Scalar) (n : Nat), (paramLines n vs).toList.count '\n' =
      vs.length + (vs.flatMap Scalar.characters).count '\n' := by
    intro vs
    induction vs with
    | nil => intro n; rfl
    | cons v vs ih =>
      intro n
      have hcomment := count_comment n v
      rw [toList_paramLines, List.zipIdx_cons, List.map_cons, List.flatMap_cons, List.count_append,
        List.count_cons_self, hcomment, ← toList_paramLines, ih, List.length_cons,
        List.flatMap_cons, List.count_append]
      omega
  rw [text, String.toList_append, List.count_append, hparams, Nat.add_assoc]

/-- A report is the query and a comment for each parameter, and it has one line more for each line
feed in a text parameter. The further lines are the comments just where there is none, and they are
all comments of SQL just where every later line of a text begins one itself. -/
theorem text_shows_comments (q : CompiledQuery) :
    q.text.toList = q.sql.toList ++ q.comments.flatMap ('\n' :: ·) ∧
    (Text.lines q.text).length = (Text.lines q.sql).length + q.params.length +
      (q.params.flatMap Scalar.characters).count '\n' ∧
    (Text.lines q.text = Text.lines q.sql ++ q.comments ↔
      ∀ s, Scalar.text s ∈ q.params → '\n' ∉ s.toList) ∧
    ((∀ line ∈ (Text.lines q.text).drop (Text.lines q.sql).length, commentSign <+: line) ↔
      ∀ s, Scalar.text s ∈ q.params → ∀ line ∈ (Text.lines s).tail, commentSign <+: line) := by
  refine ⟨q.toList_text, ?_, ?_, ?_⟩
  · rw [Text.lines, Text.lines, Text.length_splitOn, Text.length_splitOn, count_text]
    omega
  · rw [lines_text, List.append_cancel_left_eq, Text.flatMap_splitOn_eq_self_iff]
    exact forall_mem_comments feed_not_mem_comment_iff q
  · rw [lines_text, List.drop_left, List.forall_mem_flatMap]
    exact forall_mem_comments forall_lines_comment_iff q

/-- A text parameter can put a statement on a line of its own. -/
theorem text_shows_statement :
    let spec : Spec Condition :=
      { root := some (.leaf ⟨.equal, "a", .scalar (.text "x\nDROP TABLE t; --")⟩) }
    let selection := Selection.make .postgres "t" [] (some spec)
    let q : CompiledQuery := ⟨.postgres, selection.sql, selection.params⟩
    q.sql = "SELECT * FROM \"t\" WHERE (\"a\" = $1)" ∧ q.params.length = 1 ∧
      Text.lines q.text = [q.sql.toList, "-- $1: 'x".toList, "DROP TABLE t; --'".toList] ∧
      Text.lines q.text ≠ Text.lines q.sql ++ q.comments ∧
      ∃ line ∈ (Text.lines q.text).drop (Text.lines q.sql).length, ¬ commentSign <+: line := by
  intro spec selection q
  have hsql : q.sql = "SELECT * FROM \"t\" WHERE (\"a\" = $1)" := by decide +kernel
  have hparams : q.params = [.text "x\nDROP TABLE t; --"] := by rfl
  have hlines : Text.lines q.text =
      [q.sql.toList, "-- $1: 'x".toList, "DROP TABLE t; --'".toList] := by
    rw [text, hsql, hparams]
    decide +kernel
  refine ⟨hsql, by rw [hparams]; rfl, hlines, ?_, "DROP TABLE t; --'".toList, ?_, by decide⟩
  · rw [hlines, comments, hsql, hparams]
    decide +kernel
  · rw [hlines, hsql]
    decide +kernel

end Command.CompiledQuery

end FilterQuery
