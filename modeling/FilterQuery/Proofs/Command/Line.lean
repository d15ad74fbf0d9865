import FilterQuery.Command.Environment
import FilterQuery.Proofs.Text.Blank

/-!
# Lines of environment files

A line is blank, a comment or an assignment, or it is refused, and nothing but the line decides
which. What it says is told here by its form, without the order in which a reader looks at it.
-/
namespace FilterQuery.Command.EnvLine

/-- The two kinds of quotes around a value. -/
def IsQuote (c : Char) : Prop := c = '"' ∨ c = '\x27'

instance (c : Char) : Decidable (IsQuote c) := inferInstanceAs (Decidable (_ ∨ _))

/-- A text between two quotes of one kind stands for what is between them, any other for itself. -/
inductive Unquoted : List Char → List Char → Prop where
  | quoted {q : Char} (quote : IsQuote q) (inner : List Char) :
      Unquoted (q :: (inner ++ [q])) inner
  | bare {cs : List Char} (bare : ∀ q inner, IsQuote q → cs ≠ q :: (inner ++ [q])) : Unquoted cs cs

/-- One leading `export` with its space is dropped. -/
inductive Exported : List Char → List Char → Prop where
  | exported (rest : List Char) : Exported ("export ".toList ++ rest) rest
  | plain {cs : List Char} (plain : ¬ "export ".toList <+: cs) : Exported cs cs

/-- A line that is neither blank nor a comment, and what it is read as: the line without the blanks
around it and without an `export`. -/
structure Content (line body : List Char) : Prop where
  visible : ¬ Text.Blank line
  uncommented : line.find? (fun c => !Text.isBlank c) ≠ some '#'
  exported : Exported (Text.trimChars line) body

/-- What a line says. The first `=` ends the key, and blanks around key and value do not count. -/
inductive Tells (line : List Char) : EnvLine → Prop where
  | blank (blank : Text.Blank line) : Tells line nothing
  | comment (mark : line.find? (fun c => !Text.isBlank c) = some '#') : Tells line nothing
  | assignment {left right value : List Char} (content : Content line (left ++ '=' :: right))
      (first : '=' ∉ left) (named : ¬ Text.Blank left)
      (unquoted : Unquoted (Text.trimChars right) value) :
      Tells line (.assignment (String.ofList (Text.trimChars left)) (String.ofList value))
  | noAssignment {body : List Char} (content : Content line body) (missing : '=' ∉ body) :
      Tells line noAssignment
  | emptyKey {left right : List Char} (content : Content line (left ++ '=' :: right))
      (first : '=' ∉ left) (blank : Text.Blank left) : Tells line emptyKey

theorem unquote_quoted {q : Char} (hq : IsQuote q) (inner : List Char) :
    unquote (q :: (inner ++ [q])) = inner := by
  have hquote : (q = '"' || q = '\x27') = true := by
    rcases hq with rfl | rfl <;> rfl
  simp [unquote, hquote]

theorem unquote_bare {cs : List Char} (h : ∀ q inner, IsQuote q → cs ≠ q :: (inner ++ [q])) :
    unquote cs = cs := by
  cases cs with
  | nil => rfl
  | cons q rest =>
    rw [unquote, if_neg]
    intro hquote
    simp only [Bool.and_eq_true, Bool.or_eq_true, decide_eq_true_eq] at hquote
    obtain ⟨inner, hrest⟩ := List.getLast?_eq_some_iff.mp hquote.2
    exact h q inner hquote.1 (by rw [hrest])

theorem unquoted_unquote (cs : List Char) : Unquoted cs (unquote cs) := by
  by_cases h : ∃ q inner, IsQuote q ∧ cs = q :: (inner ++ [q])
  · obtain ⟨q, inner, hq, rfl⟩ := h
    rw [unquote_quoted hq]
    exact .quoted hq inner
  · have hbare : ∀ q inner, IsQuote q → cs ≠ q :: (inner ++ [q]) :=
      fun q inner hq hcs => h ⟨q, inner, hq, hcs⟩
    rw [unquote_bare hbare]
    exact .bare hbare

theorem Unquoted.eq_unquote {cs ts : List Char} (h : Unquoted cs ts) : ts = unquote cs := by
  cases h with
  | quoted hq => exact (unquote_quoted hq _).symm
  | bare hbare => exact (unquote_bare hbare).symm

theorem withoutExport_export (rest : List Char) :
    withoutExport ("export ".toList ++ rest) = rest := by
  have hprefix : "export ".toList.isPrefixOf ("export ".toList ++ rest) = true := by simp
  rw [withoutExport, if_pos hprefix, List.drop_left]

theorem withoutExport_plain {cs : List Char} (h : ¬ "export ".toList <+: cs) :
    withoutExport cs = cs := by
  rw [withoutExport, if_neg]
  rwa [List.isPrefixOf_iff_prefix]

theorem exported_withoutExport (cs : List Char) : Exported cs (withoutExport cs) := by
  by_cases h : "export ".toList <+: cs
  · obtain ⟨rest, rfl⟩ := h
    rw [withoutExport_export]
    exact .exported rest
  · rw [withoutExport_plain h]
    exact .plain h

theorem Exported.eq_withoutExport {cs ts : List Char} (h : Exported cs ts) :
    ts = withoutExport cs := by
  cases h with
  | exported => exact (withoutExport_export _).symm
  | plain hplain => exact (withoutExport_plain hplain).symm

theorem content_withoutExport {line : List Char} (hvisible : ¬ Text.Blank line)
    (hmark : line.find? (fun c => !Text.isBlank c) ≠ some '#') :
    Content line (withoutExport (Text.trimChars line)) :=
  ⟨hvisible, hmark, exported_withoutExport _⟩

/-- A line with a content is read at its first `=`. -/
theorem Content.ofChars_eq {line body : List Char} (h : Content line body) :
    ofChars line =
      match Text.cutFirst '=' body with
      | none => noAssignment
      | some (key, value) =>
        match Text.trimChars key with
        | [] => emptyKey
        | key => assignment (String.ofList key) (String.ofList (unquote (Text.trimChars value))) := by
  have hhead := Text.head?_trimChars line
  have hmark := h.uncommented
  rw [h.exported.eq_withoutExport, ofChars]
  rw [← hhead] at hmark
  split
  · next hnil => exact absurd (Text.trimChars_eq_nil_iff.mp hnil) h.visible
  · next hcons => simp [hcons] at hmark
  · rfl

theorem Tells.ofChars_eq {line : List Char} {e : EnvLine} (h : Tells line e) : ofChars line = e := by
  cases h with
  | blank hblank => rw [ofChars, Text.trimChars_eq_nil_iff.mpr hblank]
  | comment hmark =>
    rw [← Text.head?_trimChars] at hmark
    obtain ⟨rest, hline⟩ := List.head?_eq_some_iff.mp hmark
    rw [ofChars, hline]
    rfl
  | assignment hcontent hfirst hnamed hvalue =>
    rw [hcontent.ofChars_eq, Text.cutFirst_append hfirst, hvalue.eq_unquote]
    dsimp only
    split
    · next hnil => exact absurd (Text.trimChars_eq_nil_iff.mp hnil) hnamed
    · rfl
  | noAssignment hcontent hmissing =>
    rw [hcontent.ofChars_eq, Text.cutFirst_eq_none_iff.mpr hmissing]
  | emptyKey hcontent hfirst hblank =>
    rw [hcontent.ofChars_eq, Text.cutFirst_append hfirst]
    simp [Text.trimChars_eq_nil_iff.mpr hblank]

theorem tells_ofChars (line : List Char) : Tells line (ofChars line) := by
  by_cases hvisible : Text.Blank line
  · have htells : Tells line nothing := .blank hvisible
    rwa [htells.ofChars_eq]
  by_cases hmark : line.find? (fun c => !Text.isBlank c) = some '#'
  · have htells : Tells line nothing := .comment hmark
    rwa [htells.ofChars_eq]
  have hcontent := content_withoutExport hvisible hmark
  generalize withoutExport (Text.trimChars line) = body at hcontent
  cases hcut : Text.cutFirst '=' body with
  | none =>
    have htells : Tells line noAssignment :=
      .noAssignment hcontent (Text.cutFirst_eq_none_iff.mp hcut)
    rwa [htells.ofChars_eq]
  | some parts =>
    obtain ⟨left, right⟩ := parts
    have hfirst := Text.not_mem_of_cutFirst hcut
    rw [Text.eq_append_of_cutFirst hcut] at hcontent
    by_cases hblank : Text.Blank left
    · have htells : Tells line emptyKey := .emptyKey hcontent hfirst hblank
      rwa [htells.ofChars_eq]
    · have htells := Tells.assignment hcontent hfirst hblank (unquoted_unquote (Text.trimChars right))
      rwa [htells.ofChars_eq]

/-- Reading a line gives what it says, and a line says one thing. -/
theorem ofChars_eq_iff {line : List Char} {e : EnvLine} : ofChars line = e ↔ Tells line e := by
  constructor
  · rintro rfl
    exact tells_ofChars line
  · exact Tells.ofChars_eq

end FilterQuery.Command.EnvLine
