import FilterQuery.Command.Settings
import FilterQuery.Proofs.Compile.Columns

/-!
# Settings by field

Each setting is read off one text: its own flag, or else its own variable, unless they are blank.
What a text gives is told here by a relation for each setting. Main statement: settings are resolved
just as these relations have it, only the text of the dialect can be refused, and the columns make
up a list of names and stars.
-/
namespace FilterQuery

namespace Dialect

/-- The names of the dialects, in small letters. -/
inductive Named : String → Dialect → Prop where
  | postgres {name : String} (known : name ∈ ["postgres", "postgresql", "pg"]) : Named name postgres
  | mysql {name : String} (known : name ∈ ["mysql", "mariadb"]) : Named name mysql

theorem Named.unique {name : String} {d d' : Dialect} (h : Named name d) (h' : Named name d') :
    d = d' := by
  cases h with
  | postgres hname =>
    cases h' with
    | postgres _ => rfl
    | mysql hname' =>
      simp only [List.mem_cons, List.not_mem_nil, or_false] at hname
      rcases hname with rfl | rfl | rfl <;> simp at hname'
  | mysql hname =>
    cases h' with
    | postgres hname' =>
      simp only [List.mem_cons, List.not_mem_nil, or_false] at hname
      rcases hname with rfl | rfl <;> simp at hname'
    | mysql _ => rfl

theorem ofName_cases (s : String) :
    (∃ d, Named (Text.lower (Text.trim s)) d ∧ ofName s = .ok d) ∨
      (∀ d, ¬ Named (Text.lower (Text.trim s)) d) ∧
        ofName s = .error ⟨Text.lower (Text.trim s)⟩ := by
  unfold ofName
  split
  · next h => exact .inl ⟨_, .postgres (by simp [h]), rfl⟩
  · next h => exact .inl ⟨_, .postgres (by simp [h]), rfl⟩
  · next h => exact .inl ⟨_, .postgres (by simp [h]), rfl⟩
  · next h => exact .inl ⟨_, .mysql (by simp [h]), rfl⟩
  · next h => exact .inl ⟨_, .mysql (by simp [h]), rfl⟩
  · next h₁ h₂ h₃ h₄ h₅ =>
    refine .inr ⟨fun d hd => ?_, rfl⟩
    cases hd with
    | postgres hname =>
      simp only [List.mem_cons, List.not_mem_nil, or_false] at hname
      exact hname.elim h₁ fun hname => hname.elim h₂ h₃
    | mysql hname =>
      simp only [List.mem_cons, List.not_mem_nil, or_false] at hname
      exact hname.elim h₄ h₅

theorem ofName_eq_ok_iff {s : String} {d : Dialect} :
    ofName s = .ok d ↔ ∃ name, Text.Padded s name ∧ Named (Text.lower name) d := by
  simp only [← Text.trim_eq_iff, exists_eq_left']
  rcases ofName_cases s with ⟨found, hnamed, hok⟩ | ⟨hunknown, herror⟩
  · rw [hok, Except.ok.injEq]
    exact ⟨fun h => h ▸ hnamed, hnamed.unique⟩
  · rw [herror]
    exact iff_of_false (fun h => by cases h) (hunknown d)

theorem ofName_eq_error_iff {s : String} {e : Unsupported} :
    ofName s = .error e ↔
      ∃ name, Text.Padded s name ∧ (∀ d, ¬ Named (Text.lower name) d) ∧ e = ⟨Text.lower name⟩ := by
  simp only [← Text.trim_eq_iff, exists_eq_left']
  rcases ofName_cases s with ⟨found, hnamed, hok⟩ | ⟨hunknown, herror⟩
  · rw [hok]
    exact iff_of_false (fun h => by cases h) fun h => h.1 found hnamed
  · rw [herror, Except.error.injEq]
    exact ⟨fun h => ⟨hunknown, h.symm⟩, fun h => h.2.symm⟩

end Dialect

namespace Command.Settings

/-- The text that a flag and a variable choose. The flag counts first, and what is blank counts as
unset. -/
inductive Chooses (flag var : Option String) : Option String → Prop where
  | ofFlag {s : String} (given : flag = some s) (visible : ¬ Text.Blank s.toList) :
      Chooses flag var (some s)
  | ofVariable {s : String} (unset : ∀ t ∈ flag, Text.Blank t.toList) (given : var = some s)
      (visible : ¬ Text.Blank s.toList) : Chooses flag var (some s)
  | neither (noFlag : ∀ t ∈ flag, Text.Blank t.toList) (noVariable : ∀ t ∈ var, Text.Blank t.toList) :
      Chooses flag var none

theorem filter_visible {s : String} (h : ¬ Text.Blank s.toList) :
    (some s).filter (fun v => !Text.allBlank v) = some s := by
  have hvisible : Text.allBlank s = false := by
    rwa [Bool.eq_false_iff, ne_eq, Text.allBlank_iff]
  simp [hvisible]

theorem filter_unset {o : Option String} (h : ∀ t ∈ o, Text.Blank t.toList) :
    o.filter (fun v => !Text.allBlank v) = none := by
  rw [Option.filter_eq_none_iff]
  intro t ht
  simpa using Text.allBlank_iff.mpr (h t ht)

/-- A text is visible, or there is none or a blank one. -/
theorem visible_or_unset (o : Option String) :
    (∃ s, o = some s ∧ ¬ Text.Blank s.toList) ∨ ∀ t ∈ o, Text.Blank t.toList := by
  cases o with
  | none => exact .inr fun t ht => by cases ht
  | some s =>
    by_cases h : Text.Blank s.toList
    · exact .inr fun t ht => by cases ht; exact h
    · exact .inl ⟨s, rfl, h⟩

theorem Chooses.chosen_eq {flag : Option String} {key : String} {env : Environment}
    {text : Option String} (h : Chooses flag (env.value? key) text) : chosen flag key env = text := by
  cases h with
  | ofFlag hgiven hvisible => rw [chosen, hgiven, filter_visible hvisible, Option.some_or]
  | ofVariable hunset hgiven hvisible =>
    rw [chosen, filter_unset hunset, Option.none_or, Environment.get?, hgiven,
      filter_visible hvisible]
  | neither hflag hvariable =>
    rw [chosen, filter_unset hflag, Option.none_or, Environment.get?, filter_unset hvariable]

theorem chooses_chosen (flag : Option String) (key : String) (env : Environment) :
    Chooses flag (env.value? key) (chosen flag key env) := by
  rcases visible_or_unset flag with ⟨s, hgiven, hvisible⟩ | hflag
  · have hchooses : Chooses flag (env.value? key) (some s) := .ofFlag hgiven hvisible
    rwa [hchooses.chosen_eq]
  · rcases visible_or_unset (env.value? key) with ⟨s, hgiven, hvisible⟩ | hvariable
    · have hchooses : Chooses flag (env.value? key) (some s) := .ofVariable hflag hgiven hvisible
      rwa [hchooses.chosen_eq]
    · have hchooses : Chooses flag (env.value? key) none := .neither hflag hvariable
      rwa [hchooses.chosen_eq]

theorem chosen_eq_iff {flag : Option String} {key : String} {env : Environment}
    {text : Option String} : chosen flag key env = text ↔ Chooses flag (env.value? key) text := by
  constructor
  · rintro rfl
    exact chooses_chosen flag key env
  · exact Chooses.chosen_eq

/-- What a text gives if there is one, and else the default. -/
inductive Gives {α : Type} (R : String → α → Prop) (default : α) : Option String → α → Prop where
  | given {s : String} {value : α} (read : R s value) : Gives R default (some s) value
  | unset : Gives R default none default

@[simp] theorem gives_some_iff {α : Type} {R : String → α → Prop} {default value : α} {s : String} :
    Gives R default (some s) value ↔ R s value := by
  constructor
  · rintro ⟨hread⟩
    exact hread
  · exact .given

@[simp] theorem gives_none_iff {α : Type} {R : String → α → Prop} {default value : α} :
    Gives R default none value ↔ default = value := by
  constructor
  · rintro ⟨⟩
    rfl
  · rintro rfl
    exact .unset

/-- A dialect is named in free case and among blanks. -/
def GivesDialect (s : String) (d : Dialect) : Prop :=
  ∃ name, Text.Padded s name ∧ Dialect.Named (Text.lower name) d

def GivesTable (s : String) (table : Option String) : Prop :=
  ∃ name, Text.Padded s name ∧ table = some name

/-- The columns of a text: what stands between its commas, in order and without blank pieces. -/
def Entries (s : String) (columns : List String) : Prop :=
  List.Forall₂ (fun piece column => Text.Padded (String.ofList piece) column)
    ((s.toList.splitOn ',').filter fun piece => ¬ Text.Blank piece) columns

/-- All columns are meant if none is listed. -/
inductive GivesColumns (s : String) : List String → Prop where
  | listed {columns : List String} (entries : Entries s columns) (nonempty : columns ≠ []) :
      GivesColumns s columns
  | empty (entries : Entries s []) : GivesColumns s ["*"]

theorem columnList_eq_map (s : String) :
    columnList s = ((s.toList.splitOn ',').filter fun piece => ¬ Text.Blank piece).map
      fun piece => Text.trim (String.ofList piece) := by
  have hnonempty : ∀ piece, (!(Text.trimChars piece).isEmpty) = decide (¬ Text.Blank piece) := by
    intro piece
    rw [Bool.eq_iff_iff, decide_eq_true_iff, ← Text.trimChars_eq_nil_iff]
    simp
  simp only [columnList, List.filter_map, List.map_map, Function.comp_def, hnonempty, Text.trim,
    String.toList_ofList]

theorem columnList_eq_iff {s : String} {columns : List String} :
    columnList s = columns ↔ Entries s columns := by
  simp only [Entries, ← Text.trim_eq_iff]
  rw [columnList_eq_map, ← List.forall₂_eq_eq_eq, List.forall₂_map_left_iff]

/-- The dialect of a text, or the one without a text. -/
def dialectOf : Option String → Except Dialect.Unsupported Dialect
  | some s => Dialect.ofName s
  | none => .ok .postgres

/-- The columns that a text lists, or all columns. -/
def columnsOf (text : Option String) : List String :=
  match text.map columnList with
  | some (c :: cs) => c :: cs
  | _ => ["*"]

theorem dialectOf_eq_ok_iff {text : Option String} {d : Dialect} :
    dialectOf text = .ok d ↔ Gives GivesDialect .postgres text d := by
  cases text with
  | none => rw [dialectOf, gives_none_iff, Except.ok.injEq]
  | some s => rw [dialectOf, gives_some_iff, Dialect.ofName_eq_ok_iff, GivesDialect]

theorem columnsOf_some_iff {s : String} {columns : List String} :
    columnsOf (some s) = columns ↔ GivesColumns s columns := by
  rw [columnsOf, Option.map_some]
  constructor
  · intro h
    cases hlist : columnList s with
    | nil =>
      rw [hlist] at h
      cases h
      exact .empty (columnList_eq_iff.mp hlist)
    | cons c cs =>
      rw [hlist] at h
      cases h
      exact .listed (columnList_eq_iff.mp hlist) (List.cons_ne_nil c cs)
  · intro h
    cases h with
    | listed hentries hnonempty =>
      obtain ⟨c, cs, rfl⟩ := List.exists_cons_of_ne_nil hnonempty
      rw [columnList_eq_iff.mpr hentries]
    | empty hentries => rw [columnList_eq_iff.mpr hentries]

theorem columnsOf_eq_iff {text : Option String} {columns : List String} :
    columnsOf text = columns ↔ Gives GivesColumns ["*"] text columns := by
  cases text with
  | none =>
    rw [gives_none_iff]
    rfl
  | some s => rw [gives_some_iff, columnsOf_some_iff]

theorem map_trim_eq_iff {text table : Option String} :
    text.map Text.trim = table ↔ Gives GivesTable none text table := by
  cases text with
  | none => rw [gives_none_iff, Option.map_none]
  | some s =>
    simp only [gives_some_iff, GivesTable, ← Text.trim_eq_iff, exists_eq_left', Option.map_some]
    exact eq_comm

theorem getD_info_eq_iff {text : Option String} {level : String} :
    text.getD "info" = level ↔ Gives Eq "info" text level := by
  cases text with
  | none => rw [gives_none_iff, Option.getD_none]
  | some s => rw [gives_some_iff, Option.getD_some]

/-- A setting is what the text gives that its flag and its variable choose, or else its default. -/
def ReadOff {α : Type} (R : String → α → Prop) (default : α) (flag : Option String) (key : String)
    (env : Environment) (value : α) : Prop :=
  ∃ text, Chooses flag (env.value? key) text ∧ Gives R default text value

structure ResolvesTo (flags : Flags) (env : Environment) (s : Settings) : Prop where
  dialect : ReadOff GivesDialect .postgres flags.dialect "CONDSPEC_DIALECT" env s.dialect
  table : ReadOff GivesTable none flags.table "CONDSPEC_TABLE" env s.table
  columns : ReadOff GivesColumns ["*"] flags.columns "CONDSPEC_COLUMNS" env s.columns
  logLevel : ReadOff Eq "info" flags.logLevel "CONDSPEC_LOG" env s.logLevel

theorem readOff_iff {α : Type} {R : String → α → Prop} {default value : α} {flag : Option String}
    {key : String} {env : Environment} :
    ReadOff R default flag key env value ↔ Gives R default (chosen flag key env) value := by
  simp only [ReadOff, ← chosen_eq_iff, exists_eq_left']

theorem resolve_eq (flags : Flags) (env : Environment) :
    resolve flags env =
      ((dialectOf (chosen flags.dialect "CONDSPEC_DIALECT" env)).mapError Failure.dialect).map
        fun dialect =>
          { dialect
            table := (chosen flags.table "CONDSPEC_TABLE" env).map Text.trim
            columns := columnsOf (chosen flags.columns "CONDSPEC_COLUMNS" env)
            logLevel := (chosen flags.logLevel "CONDSPEC_LOG" env).getD "info" } := by
  unfold resolve
  generalize chosen flags.table _ env = table, chosen flags.columns _ env = columns,
    chosen flags.logLevel _ env = level
  cases chosen flags.dialect "CONDSPEC_DIALECT" env with
  | none => rfl
  | some s =>
    rw [dialectOf]
    dsimp only
    generalize Dialect.ofName s = named
    cases named with
    | ok d => rfl
    | error e => rfl

theorem resolve_eq_ok_iff {flags : Flags} {env : Environment} {s : Settings} :
    resolve flags env = .ok s ↔ ResolvesTo flags env s := by
  rw [resolve_eq]
  constructor
  · intro h
    cases hdialect : dialectOf (chosen flags.dialect "CONDSPEC_DIALECT" env) with
    | error e =>
      rw [hdialect] at h
      cases h
    | ok d =>
      rw [hdialect] at h
      cases h
      exact ⟨readOff_iff.mpr (dialectOf_eq_ok_iff.mp hdialect),
        readOff_iff.mpr (map_trim_eq_iff.mp rfl), readOff_iff.mpr (columnsOf_eq_iff.mp rfl),
        readOff_iff.mpr (getD_info_eq_iff.mp rfl)⟩
  · intro h
    rw [dialectOf_eq_ok_iff.mpr (readOff_iff.mp h.dialect),
      map_trim_eq_iff.mpr (readOff_iff.mp h.table), columnsOf_eq_iff.mpr (readOff_iff.mp h.columns),
      getD_info_eq_iff.mpr (readOff_iff.mp h.logLevel)]
    rfl

theorem resolve_eq_error_iff {flags : Flags} {env : Environment} {e : Failure} :
    resolve flags env = .error e ↔ ∃ s name,
      Chooses flags.dialect (env.value? "CONDSPEC_DIALECT") (some s) ∧ Text.Padded s name ∧
        (∀ d, ¬ Dialect.Named (Text.lower name) d) ∧ e = .dialect ⟨Text.lower name⟩ := by
  rw [resolve_eq]
  simp only [← chosen_eq_iff]
  cases chosen flags.dialect "CONDSPEC_DIALECT" env with
  | none =>
    constructor
    · intro h
      cases h
    · rintro ⟨_, _, h, _⟩
      cases h
  | some s =>
    rw [dialectOf]
    constructor
    · intro h
      cases hname : Dialect.ofName s with
      | ok d =>
        rw [hname] at h
        cases h
      | error cause =>
        rw [hname] at h
        cases h
        obtain ⟨name, hpadded, hunknown, rfl⟩ := Dialect.ofName_eq_error_iff.mp hname
        exact ⟨s, name, rfl, hpadded, hunknown, rfl⟩
    · rintro ⟨_, name, h, hpadded, hunknown, rfl⟩
      cases h
      rw [Dialect.ofName_eq_error_iff.mpr ⟨name, hpadded, hunknown, rfl⟩]
      rfl

structure Usable (s : Settings) : Prop where
  nonempty : s.columns ≠ []
  columns : ∀ column ∈ s.columns, Sql.Listable column
  table : ∀ table ∈ s.table, Text.Trimmed table.toList ∧ ¬ Text.Blank table.toList

theorem Entries.listable {s : String} {columns : List String} (h : Entries s columns) :
    ∀ column ∈ columns, Sql.Listable column := by
  rw [← columnList_eq_iff.mpr h, columnList_eq_map, List.forall_mem_map]
  intro piece hpiece
  obtain ⟨hpiece, hvisible⟩ := List.mem_filter.mp hpiece
  have hpadded : Text.Padded (String.ofList piece) (Text.trim (String.ofList piece)) :=
    Text.trim_eq_iff.mp rfl
  have hblank := hpadded.blank_iff
  have hsubset := hpadded.subset
  rw [String.toList_ofList] at hblank hsubset
  exact ⟨hpadded.trimmed, hblank.not.mp (by simpa using hvisible),
    fun hcomma => Text.not_mem_of_mem_splitOn hpiece (hsubset hcomma)⟩

theorem GivesColumns.listable {s : String} {columns : List String} (h : GivesColumns s columns) :
    columns ≠ [] ∧ ∀ column ∈ columns, Sql.Listable column := by
  cases h with
  | listed hentries hnonempty => exact ⟨hnonempty, hentries.listable⟩
  | empty _ => exact ⟨List.cons_ne_nil _ _, List.forall_mem_singleton.mpr Sql.listable_star⟩

theorem Chooses.visible {flag var : Option String} {s : String} (h : Chooses flag var (some s)) :
    ¬ Text.Blank s.toList := by
  cases h with
  | ofFlag _ hvisible => exact hvisible
  | ofVariable _ _ hvisible => exact hvisible

theorem ResolvesTo.usable {flags : Flags} {env : Environment} {s : Settings}
    (h : ResolvesTo flags env s) : Usable s := by
  have hcolumns : s.columns ≠ [] ∧ ∀ column ∈ s.columns, Sql.Listable column := by
    obtain ⟨text, _, hgives⟩ := h.columns
    cases text with
    | none =>
      rw [← gives_none_iff.mp hgives]
      exact ⟨List.cons_ne_nil _ _, List.forall_mem_singleton.mpr Sql.listable_star⟩
    | some text => exact (gives_some_iff.mp hgives).listable
  refine ⟨hcolumns.1, hcolumns.2, fun table htable => ?_⟩
  obtain ⟨text, hchooses, hgives⟩ := h.table
  rw [Option.mem_def.mp htable] at hgives
  cases text with
  | none => cases gives_none_iff.mp hgives
  | some text =>
    obtain ⟨name, hpadded, hname⟩ := gives_some_iff.mp hgives
    cases hname
    exact ⟨hpadded.trimmed, mt hpadded.blank_iff.mpr hchooses.visible⟩

/-- Two flags, each with its variable, choose the same text or none. -/
def SameChoice (flag var flag' var' : Option String) : Prop :=
  ∀ text, Chooses flag var text ↔ Chooses flag' var' text

/-- Settings of two runs agree in each field for which both runs choose the same text. -/
structure Agree (flags flags' : Flags) (env env' : Environment) (s s' : Settings) : Prop where
  dialect : SameChoice flags.dialect (env.value? "CONDSPEC_DIALECT")
    flags'.dialect (env'.value? "CONDSPEC_DIALECT") → s.dialect = s'.dialect
  table : SameChoice flags.table (env.value? "CONDSPEC_TABLE")
    flags'.table (env'.value? "CONDSPEC_TABLE") → s.table = s'.table
  columns : SameChoice flags.columns (env.value? "CONDSPEC_COLUMNS")
    flags'.columns (env'.value? "CONDSPEC_COLUMNS") → s.columns = s'.columns
  logLevel : SameChoice flags.logLevel (env.value? "CONDSPEC_LOG")
    flags'.logLevel (env'.value? "CONDSPEC_LOG") → s.logLevel = s'.logLevel

theorem ReadOff.unique {α : Type} {R : String → α → Prop} {default a b : α}
    {flag flag' : Option String} {key : String} {env env' : Environment}
    (hR : ∀ text a b, Gives R default text a → Gives R default text b → a = b)
    (ha : ReadOff R default flag key env a) (hb : ReadOff R default flag' key env' b)
    (hsame : SameChoice flag (env.value? key) flag' (env'.value? key)) : a = b := by
  obtain ⟨text, hchooses, ha⟩ := ha
  have hchosen : chosen flag' key env' = text := chosen_eq_iff.mpr ((hsame text).mp hchooses)
  rw [readOff_iff, hchosen] at hb
  exact hR text a b ha hb

theorem ResolvesTo.agree {flags flags' : Flags} {env env' : Environment} {s s' : Settings}
    (h : ResolvesTo flags env s) (h' : ResolvesTo flags' env' s') :
    Agree flags flags' env env' s s' where
  dialect := h.dialect.unique (fun text a b ha hb => by
    rw [← dialectOf_eq_ok_iff] at ha hb
    exact Except.ok.inj (ha.symm.trans hb)) h'.dialect
  table := h.table.unique (fun text a b ha hb => by
    rw [← map_trim_eq_iff] at ha hb
    exact ha.symm.trans hb) h'.table
  columns := h.columns.unique (fun text a b ha hb => by
    rw [← columnsOf_eq_iff] at ha hb
    exact ha.symm.trans hb) h'.columns
  logLevel := h.logLevel.unique (fun text a b ha hb => by
    rw [← getD_info_eq_iff] at ha hb
    exact ha.symm.trans hb) h'.logLevel

/-- Each setting is what its own flag, else its own variable, else its default gives. Only a text
that names no dialect is refused. What is resolved can be worked with: the table has a name, and the
columns make a list of names and stars. -/
theorem resolve_field_by_field (flags : Flags) (env : Environment) :
    (∀ s, resolve flags env = .ok s ↔ ResolvesTo flags env s) ∧
    (∀ e, resolve flags env = .error e ↔ ∃ s name,
      Chooses flags.dialect (env.value? "CONDSPEC_DIALECT") (some s) ∧ Text.Padded s name ∧
        (∀ d, ¬ Dialect.Named (Text.lower name) d) ∧ e = .dialect ⟨Text.lower name⟩) ∧
    ∀ s, resolve flags env = .ok s →
      (∀ flags' env' s', resolve flags' env' = .ok s' → Agree flags flags' env env' s s') ∧
      Usable s ∧
      ∀ table spec, ∃ entries, Sql.ListsColumns s.dialect s.columns entries
        (Selection.make s.dialect table s.columns spec).sql := by
  refine ⟨fun s => resolve_eq_ok_iff, fun e => resolve_eq_error_iff, fun s hs => ?_⟩
  have hresolves := resolve_eq_ok_iff.mp hs
  have husable := hresolves.usable
  exact ⟨fun flags' env' s' hs' => hresolves.agree (resolve_eq_ok_iff.mp hs'), husable,
    Sql.listsColumns_make s.dialect husable.nonempty husable.columns⟩

theorem resolve_field_by_field_mixed :
    let flags : Flags := { dialect := some " PG", table := some " ", columns := some " id,, o.x ,*" }
    let env : Environment := ⟨[("CONDSPEC_TABLE", "\tshop.orders "), ("CONDSPEC_COLUMNS", "unused"),
      ("CONDSPEC_LOG", "")]⟩
    let s : Settings := ⟨.postgres, some "shop.orders", ["id", "o.x", "*"], "info"⟩
    let flags' : Flags :=
      { table := some "\tshop.orders ", columns := some ",", logLevel := some "debug" }
    let env' : Environment := ⟨[("CONDSPEC_DIALECT", "MariaDB")]⟩
    let s' : Settings := ⟨.mysql, some "shop.orders", ["*"], "debug"⟩
    resolve flags env = .ok s ∧ resolve flags' env' = .ok s' ∧
      Agree flags flags' env env' s s' ∧ Usable s ∧
      ∃ entries, Sql.ListsColumns s.dialect s.columns entries
        (Selection.make s.dialect "shop.orders" s.columns none).sql := by
  intro flags env s flags' env' s'
  have hs : resolve flags env = .ok s := by rfl
  have hs' : resolve flags' env' = .ok s' := by rfl
  obtain ⟨hagree, husable, hlists⟩ := (resolve_field_by_field flags env).2.2 s hs
  exact ⟨hs, hs', hagree flags' env' s' hs', husable, hlists "shop.orders" none⟩

end Command.Settings

end FilterQuery
