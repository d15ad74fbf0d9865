import FilterQuery.Proofs.Command.Overlay

/-!
# Quoted values in environment files

Quotes are taken off once and from the outside, so a value between quotes needs no escaping: any
value that fits on a line can be given. Main statement: a file that quotes its values binds each key
to the value of its last line, character for character.
-/
namespace FilterQuery.Command

namespace EnvLine

/-- The text begins and ends with the quote, and the two are not one: there are two bytes. -/
structure Enclosed (q : Char) (s : String) : Prop where
  length : 2 ≤ s.utf8ByteSize
  first : s.toList.head? = some q
  last : s.toList.getLast? = some q

/-- The bytes between the first and the last are cut out between characters, and are those of the
text without its quotes. -/
structure CutBetween (s : String) : Prop where
  start : (⟨1⟩ : String.Pos.Raw).IsValid s
  stop : (⟨s.utf8ByteSize - 1⟩ : String.Pos.Raw).IsValid s
  ordered : 1 ≤ s.utf8ByteSize - 1
  bytes : (String.ofList (unquote s.toList)).toByteArray =
    s.toByteArray.extract 1 (s.utf8ByteSize - 1)

theorem IsQuote.utf8Size {q : Char} (h : IsQuote q) : q.utf8Size = 1 := by
  rcases h with rfl | rfl <;> rfl

theorem enclosed_iff {q : Char} (hq : IsQuote q) {s : String} :
    Enclosed q s ↔ ∃ inner, s.toList = q :: (inner ++ [q]) := by
  constructor
  · intro h
    obtain ⟨rest, hs⟩ := List.head?_eq_some_iff.mp h.first
    have hlast := h.last
    cases rest with
    | nil =>
      have hsize := h.length
      have hone : s = String.singleton q := by
        rw [← String.toList_inj, hs, String.toList_singleton]
      rw [hone, String.utf8ByteSize_singleton, hq.utf8Size] at hsize
      omega
    | cons c cs =>
      rw [hs, List.getLast?_cons_cons] at hlast
      obtain ⟨inner, hinner⟩ := List.getLast?_eq_some_iff.mp hlast
      exact ⟨inner, by rw [hs, hinner]⟩
  · rintro ⟨inner, hs⟩
    have hparts : s = String.singleton q ++ String.ofList inner ++ String.singleton q := by
      rw [← String.toList_inj, hs]
      simp
    refine ⟨?_, ?_, ?_⟩
    · rw [hparts, String.utf8ByteSize_append, String.utf8ByteSize_append,
        String.utf8ByteSize_singleton, hq.utf8Size]
      omega
    · rw [hs, List.head?_cons]
    · rw [hs, ← List.cons_append, List.getLast?_concat]

theorem Enclosed.cutBetween {q : Char} (hq : IsQuote q) {s : String} (h : Enclosed q s) :
    CutBetween s := by
  obtain ⟨inner, hs⟩ := (enclosed_iff hq).mp h
  have hparts : s = String.singleton q ++ String.ofList inner ++ String.singleton q := by
    rw [← String.toList_inj, hs]
    simp
  have hquote : (String.singleton q).utf8ByteSize = 1 := by
    rw [String.utf8ByteSize_singleton, hq.utf8Size]
  have hsize : s.utf8ByteSize = 1 + (String.ofList inner).utf8ByteSize + 1 := by
    rw [hparts, String.utf8ByteSize_append, String.utf8ByteSize_append, hquote]
  refine ⟨?_, ?_, ?_, ?_⟩
  · rw [String.Pos.Raw.isValid_iff_exists_append]
    refine ⟨String.singleton q, String.ofList inner ++ String.singleton q, ?_, ?_⟩
    · rw [hparts, String.append_assoc]
    · rw [String.rawEndPos, hquote]
  · rw [String.Pos.Raw.isValid_iff_exists_append]
    refine ⟨String.singleton q ++ String.ofList inner, String.singleton q, hparts, ?_⟩
    rw [String.rawEndPos, String.utf8ByteSize_append, hquote, hsize, Nat.add_sub_cancel]
  · have hlength := h.length
    omega
  · rw [hs, unquote_quoted hq, hsize, Nat.add_sub_cancel, hparts, String.append_assoc,
      String.toByteArray_append, String.toByteArray_append]
    have hcut := ByteArray.extract_append_size_add' (i := 0) (j := (String.ofList inner).utf8ByteSize)
      (b := (String.ofList inner).toByteArray ++ (String.singleton q).toByteArray) hquote.symm
    rw [Nat.add_zero] at hcut
    rw [hcut]
    exact (ByteArray.extract_append_eq_left rfl).symm

/-- Bytes are cut out exactly where quotes are taken off. -/
theorem unquote_of_not_enclosed {s : String} (h : ∀ q, IsQuote q → ¬ Enclosed q s) :
    unquote s.toList = s.toList := by
  apply unquote_bare
  intro q inner hq hs
  exact h q hq ((enclosed_iff hq).mpr ⟨inner, hs⟩)

end EnvLine

open EnvLine

/-- A line that assigns a value between quotes, possibly after `export` and among blanks. The value
is any text on one line. -/
structure QuotedLine where
  key : String
  value : String
  quote : Char
  exported : Bool
  before : List Char
  after : List Char
  key_ne : key ≠ ""
  key_trimmed : Text.trim key = key
  key_plain : '=' ∉ key.toList ∧ '\n' ∉ key.toList
  key_unmarked : key.toList.head? ≠ some '#'
  key_unexported : ¬ "export ".toList <+: key.toList
  value_line : '\n' ∉ value.toList
  quote_isQuote : IsQuote quote
  before_blank : Text.Blank before ∧ '\n' ∉ before
  after_blank : Text.Blank after ∧ '\n' ∉ after

namespace QuotedLine

variable (l : QuotedLine)

/-- The value between its quotes. -/
def quoted : List Char := l.quote :: (l.value.toList ++ [l.quote])

/-- The key and the value, without blanks. -/
def assignment : List Char := l.key.toList ++ '=' :: l.quoted

/-- The line without the blanks around it. -/
def content : List Char := (if l.exported then "export ".toList else []) ++ l.assignment

def text : List Char := l.before ++ l.content ++ l.after

theorem trimmed_key : Text.Trimmed l.key.toList := by
  have h := congrArg String.toList l.key_trimmed
  rw [Text.toList_trim] at h
  exact Text.trimChars_eq_self_iff.mp h

theorem key_visible : ¬ Text.Blank l.key.toList := by
  intro hblank
  have hnil := Text.trimChars_eq_nil_iff.mpr hblank
  rw [l.trimmed_key.trimChars_eq, String.toList_eq_nil_iff] at hnil
  exact l.key_ne hnil

theorem exists_key : ∃ c cs, l.key.toList = c :: cs ∧ Text.isBlank c = false ∧ c ≠ '#' := by
  cases hkey : l.key.toList with
  | nil => exact absurd (String.toList_eq_nil_iff.mp hkey) l.key_ne
  | cons c cs =>
    have hfirst := l.trimmed_key.first
    have hmark := l.key_unmarked
    rw [hkey] at hfirst hmark
    exact ⟨c, cs, rfl, hfirst c rfl, fun heq => hmark (by rw [heq]; rfl)⟩

/-- What the line begins with is no blank, and does not make it a comment. -/
theorem exists_content : ∃ c cs, l.content = c :: cs ∧ Text.isBlank c = false ∧ c ≠ '#' := by
  obtain ⟨c, cs, hkey, hc⟩ := l.exists_key
  rw [content, assignment, hkey]
  cases l.exported with
  | true => exact ⟨'e', _, rfl, by decide, by decide⟩
  | false => exact ⟨c, _, rfl, hc⟩

theorem quote_visible : Text.isBlank l.quote = false := by
  rcases l.quote_isQuote with h | h <;> rw [h] <;> rfl

theorem getLast?_quoted : l.quoted.getLast? = some l.quote := by
  rw [quoted, ← List.cons_append, List.getLast?_concat]

theorem trimmed_quoted : Text.Trimmed l.quoted := by
  constructor
  · intro c hc
    cases hc
    exact l.quote_visible
  · intro c hc
    rw [l.getLast?_quoted] at hc
    cases hc
    exact l.quote_visible

theorem trimmed_content : Text.Trimmed l.content := by
  obtain ⟨c, cs, hcontent, hc, _⟩ := l.exists_content
  constructor
  · intro d hd
    rw [hcontent] at hd
    cases hd
    exact hc
  · intro d hd
    have hlast : l.content.getLast? = some l.quote := by
      rw [content, assignment, List.append_cons, ← List.append_assoc, List.getLast?_append,
        l.getLast?_quoted, Option.some_or]
    rw [hlast] at hd
    cases hd
    exact l.quote_visible

theorem trimChars_text : Text.trimChars l.text = l.content :=
  Text.trimChars_eq_iff.mpr ⟨l.trimmed_content, _, _, l.before_blank.1, l.after_blank.1, rfl⟩

/-- The key has an end before a space could make `export` of it. -/
theorem exported_content : Exported l.content l.assignment := by
  rw [content]
  cases l.exported with
  | true => exact .exported l.assignment
  | false =>
    apply Exported.plain
    intro hprefix
    have hkey : l.key.toList ++ ['='] <+: l.assignment := ⟨l.quoted, by simp [assignment]⟩
    have hsign : '=' ∉ "export ".toList := by decide
    rcases List.prefix_or_prefix_of_prefix hprefix hkey with h | h
    · rcases List.prefix_concat_iff.mp h with heq | h
      · exact hsign (heq ▸ by simp)
      · exact l.key_unexported h
    · exact hsign (h.subset (by simp))

theorem tells_text : Tells l.text (.assignment l.key l.value) := by
  obtain ⟨c, cs, hcontent, hc, hmark⟩ := l.exists_content
  have htrim := l.trimChars_text
  have hread : Content l.text (l.key.toList ++ '=' :: l.quoted) := by
    refine ⟨?_, ?_, ?_⟩
    · intro hblank
      rw [Text.trimChars_eq_nil_iff.mpr hblank, hcontent] at htrim
      cases htrim
    · rw [← Text.head?_trimChars, htrim, hcontent]
      exact fun heq => hmark (Option.some.inj heq)
    · rw [htrim]
      exact l.exported_content
  have hvalue : Unquoted (Text.trimChars l.quoted) l.value.toList := by
    rw [l.trimmed_quoted.trimChars_eq]
    exact .quoted l.quote_isQuote l.value.toList
  have htells := Tells.assignment hread l.key_plain.1 l.key_visible hvalue
  rwa [l.trimmed_key.trimChars_eq, String.ofList_toList, String.ofList_toList] at htells

theorem feed_not_mem_quoted : '\n' ∉ l.quoted := by
  have hquote : '\n' ≠ l.quote := by
    rcases l.quote_isQuote with h | h <;> rw [h] <;> decide
  simp [quoted, l.value_line, hquote]

theorem feed_not_mem_content : '\n' ∉ l.content := by
  have hexport : '\n' ∉ (if l.exported then "export ".toList else []) := by
    cases l.exported <;> decide
  have hsign : '\n' ≠ '=' := by decide
  rw [content, assignment, List.mem_append, List.mem_append, List.mem_cons]
  simp only [hexport, l.key_plain.2, hsign, l.feed_not_mem_quoted, or_self, not_false_iff]

theorem feed_not_mem_text : '\n' ∉ l.text := by
  rw [text, List.mem_append, List.mem_append]
  simp only [l.before_blank.2, l.feed_not_mem_content, l.after_blank.2, or_self, not_false_iff]

theorem wellFormed_text : WellFormed l.text := .inr ⟨_, _, l.tells_text⟩

end QuotedLine

/-- A file of lines, with or without a line feed at its end. -/
def fileText (terminated : Bool) (ls : List QuotedLine) : String :=
  String.ofList (['\n'].intercalate (ls.map QuotedLine.text) ++ if terminated then ['\n'] else [])

/-- The lines of a file are those that it is made of, and possibly empty ones after them. -/
theorem exists_lines_fileText (terminated : Bool) (ls : List QuotedLine) :
    ∃ empty : List (List Char), (∀ line ∈ empty, line = []) ∧
      (fileText terminated ls).toList.splitOn '\n' = ls.map QuotedLine.text ++ empty := by
  have hunterminated : ∃ empty : List (List Char), (∀ line ∈ empty, line = []) ∧
      (['\n'].intercalate (ls.map QuotedLine.text)).splitOn '\n' =
        ls.map QuotedLine.text ++ empty := by
    cases ls with
    | nil => exact ⟨[[]], by simp, rfl⟩
    | cons l ls =>
      refine ⟨[], by simp, ?_⟩
      rw [List.splitOn_intercalate '\n' _ (by simp), List.append_nil]
      intro line hline
      obtain ⟨m, _, rfl⟩ := List.mem_map.mp hline
      exact m.feed_not_mem_text
  obtain ⟨empty, hempty, hlines⟩ := hunterminated
  rw [fileText, String.toList_ofList]
  cases terminated with
  | false => exact ⟨empty, hempty, by simpa using hlines⟩
  | true =>
    refine ⟨empty ++ [[]], ?_, ?_⟩
    · intro line hline
      rcases List.mem_append.mp hline with h | h
      · exact hempty line h
      · exact List.mem_singleton.mp h
    · rw [if_pos rfl, List.splitOn_append_cons_self, hlines, List.splitOn_nil, List.append_assoc]

/-- No line assigns a key that is not its own. -/
theorem unassigned_texts {ls : List QuotedLine} {empty : List (List Char)}
    (hempty : ∀ line ∈ empty, line = []) {key : String} (h : ∀ l ∈ ls, l.key ≠ key) :
    Unassigned (ls.map QuotedLine.text ++ empty) key := by
  intro line hline value htells
  rcases List.mem_append.mp hline with hline | hline
  · obtain ⟨l, hl, rfl⟩ := List.mem_map.mp hline
    have hsame := l.tells_text.ofChars_eq.symm.trans htells.ofChars_eq
    exact h l hl (EnvLine.assignment.inj hsame).1
  · rw [hempty line hline] at htells
    cases htells.ofChars_eq

namespace Environment

/-- A file of quoted values is read without a fault, each key is bound to exactly the value of its
last line, and other keys stay. Quotes that are taken off byte by byte leave whole characters. -/
theorem overlay_quoted_lines (env : Environment) (terminated : Bool) (ls : List QuotedLine) :
    let after := env.overlay (fileText terminated ls)
    after.2 = none ∧
    (∀ earlier l later, ls = earlier ++ l :: later → (∀ m ∈ later, m.key ≠ l.key) →
      after.1.value? l.key = some l.value) ∧
    (∀ key, (∀ l ∈ ls, l.key ≠ key) → after.1.value? key = env.value? key) ∧
    ∀ s : String, (∀ q, IsQuote q → Enclosed q s → CutBetween s) ∧
      ((∀ q, IsQuote q → ¬ Enclosed q s) → unquote s.toList = s.toList) := by
  intro after
  obtain ⟨empty, hempty, hlines⟩ := exists_lines_fileText terminated ls
  have hwell : ∀ line ∈ ls.map QuotedLine.text ++ empty, WellFormed line := by
    intro line hline
    rcases List.mem_append.mp hline with hline | hline
    · obtain ⟨l, _, rfl⟩ := List.mem_map.mp hline
      exact l.wellFormed_text
    · rw [hempty line hline]
      exact .inl (.blank (fun c hc => absurd hc List.not_mem_nil))
  have hafter : after = (env.afterLines (ls.map QuotedLine.text ++ empty), none) := by
    rw [← applyLines_of_wellFormed env 1 hwell, ← hlines]
    rfl
  rw [hafter]
  refine ⟨rfl, ?_, ?_, fun s => ⟨fun q hq h => h.cutBetween hq, unquote_of_not_enclosed⟩⟩
  · rintro earlier l later rfl hlater
    apply value?_afterLines_of_lastAssigns
    refine ⟨earlier.map QuotedLine.text, l.text, later.map QuotedLine.text ++ empty, by simp,
      l.tells_text, unassigned_texts hempty hlater⟩
  · intro key hkey
    exact value?_afterLines_of_unassigned env (unassigned_texts hempty hkey)

/-- A value with both kinds of quotes, with the signs of an assignment and of a comment, and with a
carriage return and a blank at its end. -/
def awkwardLine : QuotedLine where
  key := "A b"
  value := "it's \"=\" #\r "
  quote := '"'
  exported := true
  before := ['\t']
  after := [' ', '\r']
  key_ne := by decide
  key_trimmed := by decide
  key_plain := by decide
  key_unmarked := by decide
  key_unexported := by decide
  value_line := by decide
  quote_isQuote := by decide
  before_blank := by decide
  after_blank := by decide

theorem overlay_quoted_lines_awkward :
    let env : Environment := ⟨[("A b", "x"), ("B", "y")]⟩
    let emptied : QuotedLine := { awkwardLine with
      value := "", quote := '\x27', exported := false, value_line := by decide
      quote_isQuote := by decide }
    let after := env.overlay (fileText true [emptied, awkwardLine])
    fileText true [emptied, awkwardLine] =
        "\tA b='' \r\n\texport A b=\"it's \"=\" #\r \" \r\n" ∧
      after.2 = none ∧ after.1.value? "A b" = some "it's \"=\" #\r " ∧
      after.1.value? "B" = some "y" ∧ Enclosed '"' "\"é\"" ∧ CutBetween "\"é\"" := by
  intro env emptied after
  obtain ⟨hread, hlast, hothers, hquotes⟩ := overlay_quoted_lines env true [emptied, awkwardLine]
  have henclosed : Enclosed '"' "\"é\"" := ⟨by decide, by decide, by decide⟩
  refine ⟨by decide +kernel, hread, ?_, ?_, henclosed, (hquotes _).1 '"' (.inl rfl) henclosed⟩
  · exact hlast [emptied] awkwardLine [] rfl (fun m hm => absurd hm List.not_mem_nil)
  · exact hothers "B" (by decide)

end Environment

end FilterQuery.Command
