import FilterQuery.Proofs.Command.Loading
import FilterQuery.Proofs.Command.Settings
import Mathlib.Order.WellFounded

/-!
# Runs

A run can meet five kinds of trouble, and each is told here on its own, whatever else is wrong. Main
statement: a run without trouble prints one answer, any other run prints nothing and reports the
trouble that comes first, and the normal form that is printed of a spec is a matter of its file.
-/
namespace FilterQuery.Command

/-- The text that is chosen for the dialect names none. -/
inductive UnknownDialect (flags : Flags) (env : Environment) : Dialect.Unsupported → Prop where
  | chosen {s name : String}
      (chosen : Settings.Chooses flags.dialect (env.value? "CONDSPEC_DIALECT") (some s))
      (padded : Text.Padded s name) (unknown : ∀ d, ¬ Dialect.Named (Text.lower name) d) :
      UnknownDialect flags env ⟨Text.lower name⟩

/-- The path of the spec file. -/
def Job.specPath : Job → String
  | .compile path _ => path
  | .ast path => path

/-- What can be wrong with a run, each by itself. -/
inductive Trouble (i : Invocation) (env : Environment) (files : Files) : Failure → Prop where
  | config {cause : ConfigFault} (fault : LoadingFault i.flags files cause) :
      Trouble i env files (.config cause)
  | dialect {env' : Environment} {cause : Dialect.Unsupported}
      (loads : Loads i.flags env files env') (unknown : UnknownDialect i.flags env' cause) :
      Trouble i env files (.dialect cause)
  | specFile {cause : ReadFailure} (unreadable : Unreadable (files i.job.specPath) cause) :
      Trouble i env files (.specFile cause)
  | specText {content : String} {cause : DecodeError} (holds : Holds (files i.job.specPath) content)
      (refused : Decode.ofText Decode.spec content = .error cause) :
      Trouble i env files (.specText cause)
  | noTable {path : String} {json : Bool} {env' : Environment}
      (compiles : i.job = .compile path json) (loads : Loads i.flags env files env')
      (unset : Settings.Chooses i.flags.table (env'.value? "CONDSPEC_TABLE") none) :
      Trouble i env files .noTable

/-- The place of a failure in the order in which troubles count. -/
def Failure.stage : Failure → Nat
  | .config _ => 0
  | .dialect _ => 1
  | .specFile _ => 2
  | .specText _ => 3
  | .noTable => 4

/-- A trouble of the run before which there is no other. -/
structure FirstTrouble (i : Invocation) (env : Environment) (files : Files) (e : Failure) :
    Prop where
  trouble : Trouble i env files e
  first : ∀ e', Trouble i env files e' → e.stage ≤ e'.stage

/-- The settings that a run works with. -/
def Settled (i : Invocation) (env : Environment) (files : Files) (s : Settings) : Prop :=
  ∃ env', Loads i.flags env files env' ∧ Settings.ResolvesTo i.flags env' s

def HoldsSpec (file : Except ReadFailure ByteArray) (spec : Spec Condition) : Prop :=
  ∃ content, Holds file content ∧ Decode.ofText Decode.spec content = .ok spec

/-- The query of a spec on a table, with the dialect and the columns of the settings. -/
def Settings.query (s : Settings) (table : String) (spec : Spec Condition) : CompiledQuery :=
  let selection := Selection.make s.dialect table s.columns (some spec)
  ⟨s.dialect, selection.sql, selection.params⟩

/-- What a run is to print. For the normal form of a spec, nothing but its file counts. -/
inductive Answers (i : Invocation) (env : Environment) (files : Files) : String → Prop where
  | text {path table : String} {s : Settings} {spec : Spec Condition}
      (compiles : i.job = .compile path false) (settled : Settled i env files s)
      (named : s.table = some table) (holds : HoldsSpec (files i.job.specPath) spec) :
      Answers i env files (s.query table spec).text
  | json {path table : String} {s : Settings} {spec : Spec Condition}
      (compiles : i.job = .compile path true) (settled : Settled i env files s)
      (named : s.table = some table) (holds : HoldsSpec (files i.job.specPath) spec) :
      Answers i env files (s.query table spec).toJson.prettyText
  | normalForm {path : String} {spec : Spec Condition} (prints : i.job = .ast path)
      (holds : HoldsSpec (files i.job.specPath) spec) : Answers i env files spec.toJson.prettyText

theorem resolve_eq_error_iff_unknownDialect {flags : Flags} {env : Environment}
    {cause : Dialect.Unsupported} :
    Settings.resolve flags env = .error (.dialect cause) ↔ UnknownDialect flags env cause := by
  rw [Settings.resolve_eq_error_iff]
  constructor
  · rintro ⟨s, name, hchosen, hpadded, hunknown, hcause⟩
    cases hcause
    exact .chosen hchosen hpadded hunknown
  · intro h
    cases h with
    | chosen hchosen hpadded hunknown => exact ⟨_, _, hchosen, hpadded, hunknown, rfl⟩

theorem resolves_or_unknownDialect (flags : Flags) (env : Environment) :
    (∃ s, Settings.ResolvesTo flags env s) ∨ ∃ cause, UnknownDialect flags env cause := by
  cases hresolve : Settings.resolve flags env with
  | ok s => exact .inl ⟨s, Settings.resolve_eq_ok_iff.mp hresolve⟩
  | error e =>
    obtain ⟨s, name, hchosen, hpadded, hunknown, _⟩ := Settings.resolve_eq_error_iff.mp hresolve
    exact .inr ⟨_, .chosen hchosen hpadded hunknown⟩

/-- The table is missing exactly where no text is chosen for it. -/
theorem table_eq_none_iff {flags : Flags} {env : Environment} {s : Settings}
    (h : Settings.ResolvesTo flags env s) :
    s.table = none ↔ Settings.Chooses flags.table (env.value? "CONDSPEC_TABLE") none := by
  have hgives := Settings.readOff_iff.mp h.table
  rw [← Settings.chosen_eq_iff, ← Settings.map_trim_eq_iff.mpr hgives, Option.map_eq_none_iff]

/-- What is left to do once the settings are known. -/
def Job.result (s : Settings) (spec : Spec Condition) : Job → Except Failure String
  | .compile _ json => do
    let query ← compileQuery s spec
    pure (if json then query.toJson.prettyText else query.text)
  | .ast _ => pure spec.toJson.prettyText

variable {i : Invocation} {env : Environment} {files : Files}

theorem Invocation.answer_eq (i : Invocation) (env : Environment) (files : Files) :
    i.answer env files = (do
      let env ← loadEnvironment i.flags env files
      let settings ← Settings.resolve i.flags env
      let spec ← loadSpec i.job.specPath files
      i.job.result settings spec) := by
  obtain ⟨flags, job⟩ := i
  cases job <;> rfl

theorem Settled.answer_eq {s : Settings} (h : Settled i env files s) :
    i.answer env files = loadSpec i.job.specPath files >>= fun spec => i.job.result s spec := by
  obtain ⟨env', hloads, hresolves⟩ := h
  rw [Invocation.answer_eq, hloads.loadEnvironment_eq]
  simp only [bind, Except.bind, Settings.resolve_eq_ok_iff.mpr hresolves]

theorem loadSpec_of_unreadable {path : String} {cause : ReadFailure}
    (h : Unreadable (files path) cause) : loadSpec path files = .error (.specFile cause) := by
  rw [loadSpec, textOfBytes_eq_error_iff.mpr h]
  rfl

theorem loadSpec_of_holds {path content : String} (h : Holds (files path) content) :
    loadSpec path files = (Decode.ofText Decode.spec content).mapError .specText := by
  rw [loadSpec, textOfBytes_eq_ok_iff.mpr h]
  rfl

theorem HoldsSpec.loadSpec_eq {path : String} {spec : Spec Condition}
    (h : HoldsSpec (files path) spec) : loadSpec path files = .ok spec := by
  obtain ⟨content, hholds, hdecoded⟩ := h
  rw [loadSpec_of_holds hholds, hdecoded]
  rfl

theorem Settled.answer_eq_result {s : Settings} {spec : Spec Condition}
    (h : Settled i env files s) (hspec : HoldsSpec (files i.job.specPath) spec) :
    i.answer env files = i.job.result s spec := by
  rw [h.answer_eq, hspec.loadSpec_eq]
  rfl

theorem result_compile_of_some {s : Settings} {table : String} (h : s.table = some table)
    (path : String) (json : Bool) (spec : Spec Condition) :
    (Job.compile path json).result s spec =
      .ok (if json then (s.query table spec).toJson.prettyText else (s.query table spec).text) := by
  simp only [Job.result, compileQuery, Settings.requireTable, h, bind, Except.bind]
  rfl

theorem result_compile_of_none {s : Settings} (h : s.table = none) (path : String) (json : Bool)
    (spec : Spec Condition) : (Job.compile path json).result s spec = .error .noTable := by
  simp only [Job.result, compileQuery, Settings.requireTable, h, bind, Except.bind]

theorem exists_resolvesTo {env' : Environment} (hloads : Loads i.flags env files env')
    (h : ∀ e, Trouble i env files e → 2 ≤ e.stage) : ∃ s, Settings.ResolvesTo i.flags env' s := by
  rcases resolves_or_unknownDialect i.flags env' with hresolves | ⟨cause, hunknown⟩
  · exact hresolves
  · have hlate : 2 ≤ 1 := h _ (.dialect hloads hunknown)
    omega

theorem exists_settled (h : ∀ e, Trouble i env files e → 2 ≤ e.stage) :
    ∃ s, Settled i env files s := by
  rcases loads_or_loadingFault i.flags env files with ⟨env', hloads⟩ | ⟨cause, hfault⟩
  · obtain ⟨s, hresolves⟩ := exists_resolvesTo hloads h
    exact ⟨s, env', hloads, hresolves⟩
  · have hlate : 2 ≤ 0 := h _ (.config hfault)
    omega

theorem exists_holdsSpec (h : ∀ e, Trouble i env files e → 4 ≤ e.stage) :
    ∃ spec, HoldsSpec (files i.job.specPath) spec := by
  cases hread : textOfBytes (files i.job.specPath) with
  | error cause =>
    have hlate : 4 ≤ 2 := h _ (.specFile (textOfBytes_eq_error_iff.mp hread))
    omega
  | ok content =>
    have hholds := textOfBytes_eq_ok_iff.mp hread
    cases hdecode : Decode.ofText Decode.spec content with
    | error cause =>
      have hlate : 4 ≤ 3 := h _ (.specText hholds hdecode)
      omega
    | ok spec => exact ⟨spec, content, hholds, hdecode⟩

theorem FirstTrouble.answer_eq {e : Failure} (h : FirstTrouble i env files e) :
    i.answer env files = .error e := by
  obtain ⟨htrouble, hfirst⟩ := h
  cases htrouble with
  | config hfault =>
    rw [Invocation.answer_eq, hfault.loadEnvironment_eq]
    rfl
  | dialect hloads hunknown =>
    rw [Invocation.answer_eq, hloads.loadEnvironment_eq]
    simp only [bind, Except.bind, resolve_eq_error_iff_unknownDialect.mpr hunknown]
  -- From here on the trouble says nothing of the steps before it, but that it is the first does.
  | specFile hunreadable =>
    obtain ⟨s, hsettled⟩ := exists_settled hfirst
    rw [hsettled.answer_eq, loadSpec_of_unreadable hunreadable]
    rfl
  | specText hholds hrefused =>
    have hlate : ∀ e, Trouble i env files e → 2 ≤ e.stage :=
      fun e he => Nat.le_of_succ_le (hfirst e he)
    obtain ⟨s, hsettled⟩ := exists_settled hlate
    rw [hsettled.answer_eq, loadSpec_of_holds hholds, hrefused]
    rfl
  | noTable hcompiles hloads hunset =>
    -- The settings have to be those of the environment in which the table is unset.
    have hlate : ∀ e, Trouble i env files e → 2 ≤ e.stage :=
      fun e he => le_trans (by decide) (hfirst e he)
    obtain ⟨s, hresolves⟩ := exists_resolvesTo hloads hlate
    have hsettled : Settled i env files s := ⟨_, hloads, hresolves⟩
    obtain ⟨spec, hspec⟩ := exists_holdsSpec hfirst
    rw [hsettled.answer_eq_result hspec, hcompiles,
      result_compile_of_none ((table_eq_none_iff hresolves).mpr hunset)]

theorem Answers.answer_eq {text : String} (h : Answers i env files text)
    (hnone : ∀ e, ¬ Trouble i env files e) : i.answer env files = .ok text := by
  cases h with
  | text hcompiles hsettled hnamed hspec =>
    rw [hsettled.answer_eq_result hspec, hcompiles, result_compile_of_some hnamed]
    rfl
  | json hcompiles hsettled hnamed hspec =>
    rw [hsettled.answer_eq_result hspec, hcompiles, result_compile_of_some hnamed]
    rfl
  | normalForm hprints hspec =>
    obtain ⟨s, hsettled⟩ := exists_settled fun e he => absurd he (hnone e)
    rw [hsettled.answer_eq_result hspec, hprints]
    rfl

theorem exists_answers (h : ∀ e, ¬ Trouble i env files e) : ∃ text, Answers i env files text := by
  obtain ⟨s, env', hloads, hresolves⟩ := exists_settled fun e he => absurd he (h e)
  obtain ⟨spec, hspec⟩ := exists_holdsSpec fun e he => absurd he (h e)
  have hsettled : Settled i env files s := ⟨env', hloads, hresolves⟩
  cases hjob : i.job with
  | ast path => exact ⟨_, .normalForm hjob hspec⟩
  | compile path json =>
    cases htable : s.table with
    | none =>
      have hunset := (table_eq_none_iff hresolves).mp htable
      exact absurd (.noTable hjob hloads hunset) (h .noTable)
    | some table =>
      cases json with
      | false => exact ⟨_, .text hjob hsettled htable hspec⟩
      | true => exact ⟨_, .json hjob hsettled htable hspec⟩

theorem exists_firstTrouble {e : Failure} (h : Trouble i env files e) :
    ∃ e', FirstTrouble i env files e' := by
  obtain ⟨e', htrouble, hfirst⟩ :=
    (measure Failure.stage).wf.has_min {e | Trouble i env files e} ⟨e, h⟩
  exact ⟨e', htrouble, fun other hother => Nat.le_of_not_lt (hfirst other hother)⟩

/-- A run has an answer and no trouble, or a first trouble. -/
theorem answers_or_firstTrouble (i : Invocation) (env : Environment) (files : Files) :
    (∃ text, (∀ e, ¬ Trouble i env files e) ∧ Answers i env files text) ∨
      ∃ e, FirstTrouble i env files e := by
  by_cases h : ∃ e, Trouble i env files e
  · obtain ⟨e, he⟩ := h
    exact .inr (exists_firstTrouble he)
  · have hnone : ∀ e, ¬ Trouble i env files e := fun e he => h ⟨e, he⟩
    obtain ⟨text, htext⟩ := exists_answers hnone
    exact .inl ⟨text, hnone, htext⟩

theorem answer_eq_ok_iff {text : String} :
    i.answer env files = .ok text ↔ (∀ e, ¬ Trouble i env files e) ∧ Answers i env files text := by
  constructor
  · intro h
    rcases answers_or_firstTrouble i env files with ⟨text', hnone, hanswers⟩ | ⟨e, he⟩
    · rw [hanswers.answer_eq hnone] at h
      cases h
      exact ⟨hnone, hanswers⟩
    · rw [he.answer_eq] at h
      cases h
  · rintro ⟨hnone, hanswers⟩
    exact hanswers.answer_eq hnone

theorem answer_eq_error_iff {e : Failure} :
    i.answer env files = .error e ↔ FirstTrouble i env files e := by
  constructor
  · intro h
    rcases answers_or_firstTrouble i env files with ⟨text, hnone, hanswers⟩ | ⟨e', he'⟩
    · rw [hanswers.answer_eq hnone] at h
      cases h
    · rw [he'.answer_eq] at h
      cases h
      exact he'
  · exact FirstTrouble.answer_eq

theorem Settled.answer_ast_eq {s : Settings} {path : String} (h : Settled i env files s)
    (hprints : i.job = .ast path) :
    i.answer env files = (loadSpec path files).map fun spec => spec.toJson.prettyText := by
  rw [h.answer_eq, hprints]
  rfl

theorem loadSpec_congr {files' : Files} {path path' : String} (h : files path = files' path') :
    loadSpec path files = loadSpec path' files' := by
  rw [loadSpec, loadSpec, h]

theorem run_eq_answered_iff {args : List String} (h : Request.ofCommandLine args = .run i)
    {text : String} :
    run args env files = { exit := 0, stdout := text ++ "\n" } ↔ i.answer env files = .ok text := by
  simp only [run, h]
  cases i.answer env files with
  | ok text' => simp
  | error e => simp

theorem run_eq_failed_iff {args : List String} (h : Request.ofCommandLine args = .run i)
    {e : Failure} :
    run args env files = { exit := 1, stdout := "", failure := some e } ↔
      i.answer env files = .error e := by
  simp only [run, h]
  cases i.answer env files with
  | ok text => simp
  | error e' => simp

/-- A run that prints something has succeeded. -/
theorem run_eq_answered_of_stdout {args : List String} (h : Request.ofCommandLine args = .run i)
    {text : String} (hout : (run args env files).stdout = text ++ "\n") :
    run args env files = { exit := 0, stdout := text ++ "\n" } := by
  simp only [run, h] at hout ⊢
  cases hanswer : i.answer env files with
  | ok text' =>
    simp only [hanswer] at hout ⊢
    rw [hout]
  | error e =>
    simp only [hanswer] at hout
    have hempty : ("" : String).toList = (text ++ "\n").toList := congrArg String.toList hout
    simp at hempty

/-- A run prints its one answer if nothing is wrong. Otherwise it prints nothing and reports what is
wrong first: the environment file, the dialect, reading the spec file, what it says, or the table. A
normal form is a matter of the spec file alone, once the settings are known. -/
theorem run_answers_or_reports {args : List String} {i : Invocation}
    (h : Request.ofCommandLine args = .run i) (env : Environment) (files : Files) :
    (∀ text, run args env files = { exit := 0, stdout := text ++ "\n" } ↔
      (∀ e, ¬ Trouble i env files e) ∧ Answers i env files text) ∧
    (∀ e, run args env files = { exit := 1, stdout := "", failure := some e } ↔
      FirstTrouble i env files e) ∧
    ((∃ text, run args env files = { exit := 0, stdout := text ++ "\n" }) ∨
      ∃ e, run args env files = { exit := 1, stdout := "", failure := some e }) ∧
    ∀ {args' : List String} {i' : Invocation} {env' : Environment} {files' : Files}
      {s s' : Settings} {path path' : String}, Request.ofCommandLine args' = .run i' →
      i.job = .ast path → i'.job = .ast path' → files path = files' path' →
      Settled i env files s → Settled i' env' files' s' →
      run args env files = run args' env' files' := by
  refine ⟨fun text => (run_eq_answered_iff h).trans answer_eq_ok_iff,
    fun e => (run_eq_failed_iff h).trans answer_eq_error_iff, ?_, ?_⟩
  · cases hanswer : i.answer env files with
    | ok text => exact .inl ⟨text, (run_eq_answered_iff h).mpr hanswer⟩
    | error e => exact .inr ⟨e, (run_eq_failed_iff h).mpr hanswer⟩
  · intro args' i' env' files' s s' path path' h' hprints hprints' hsame hsettled hsettled'
    simp only [run, h, h', hsettled.answer_ast_eq hprints, hsettled'.answer_ast_eq hprints',
      loadSpec_congr hsame]

/-- Of three troubles the dialect is reported, a query is printed with its parameter where there is
no trouble, and a normal form is the same under other settings. -/
theorem run_answers_or_reports_oracle :
    let files : Files := fun path =>
      if path = "limit.json" then .ok "\x7b\"limit\":5\x7d".toUTF8 else .error .missing
    let i : Invocation := ⟨{ dialect := some "Oracle" }, .compile "none.json" true⟩
    let query := "SELECT * FROM \"t\" LIMIT $1\n-- $1: 5"
    let j : Invocation := ⟨{ dialect := some "Postgres" }, .compile "limit.json" false⟩
    let env : Environment := ⟨[("CONDSPEC_DIALECT", "MySQL"), ("CONDSPEC_TABLE", "t")]⟩
    Trouble i {} files (.dialect ⟨"oracle"⟩) ∧ Trouble i {} files (.specFile .missing) ∧
      Trouble i {} files .noTable ∧
      run ["--dialect", "Oracle", "compile", "--spec=none.json", "--json"] {} files =
        { exit := 1, stdout := "", failure := some (.dialect ⟨"oracle"⟩) } ∧
      run ["compile", "--spec=limit.json", "--dialect=Postgres"] env files =
        { exit := 0, stdout := query ++ "\n" } ∧
      Answers j env files query ∧ (∀ e, ¬ Trouble j env files e) ∧
      run ["ast", "--spec=limit.json"] {} files =
        run ["--columns=a", "ast", "--spec", "limit.json"] env files ∧
      (run ["ast", "--spec=limit.json"] {} files).stdout = "\x7b\n  \"limit\": 5\n\x7d\n" := by
  intro files i query j env
  have hloads : Loads i.flags {} files {} := .unnamed rfl
  have hdialect : Trouble i {} files (.dialect ⟨"oracle"⟩) :=
    .dialect hloads (resolve_eq_error_iff_unknownDialect.mp (by rfl))
  have hnofault : ∀ cause, ¬ LoadingFault i.flags files cause := by
    rintro cause (⟨⟨⟩, _⟩ | ⟨⟨⟩, _, _⟩)
  have hfirst : FirstTrouble i {} files (.dialect ⟨"oracle"⟩) := by
    refine ⟨hdialect, fun e he => ?_⟩
    cases he with
    | config hfault => exact absurd hfault (hnofault _)
    | dialect | specFile | specText | noTable => simp [Failure.stage]
  have hcompile : Request.ofCommandLine
      ["--dialect", "Oracle", "compile", "--spec=none.json", "--json"] = .run i := by decide +kernel
  have hprints : Request.ofCommandLine ["compile", "--spec=limit.json", "--dialect=Postgres"] =
      .run j := by decide +kernel
  have hprinted : run ["compile", "--spec=limit.json", "--dialect=Postgres"] env files =
      { exit := 0, stdout := query ++ "\n" } :=
    run_eq_answered_of_stdout hprints (by decide +kernel)
  have hanswers := ((run_answers_or_reports hprints env files).1 _).mp hprinted
  have hast : Request.ofCommandLine ["ast", "--spec=limit.json"] =
      .run ⟨{}, .ast "limit.json"⟩ := by decide +kernel
  have hast' : Request.ofCommandLine ["--columns=a", "ast", "--spec", "limit.json"] =
      .run ⟨{ columns := some "a" }, .ast "limit.json"⟩ := by decide +kernel
  have hsettled : Settled ⟨{}, .ast "limit.json"⟩ {} files ⟨.postgres, none, ["*"], "info"⟩ :=
    ⟨{}, .unnamed rfl, Settings.resolve_eq_ok_iff.mp (by rfl)⟩
  have hsettled' : Settled ⟨{ columns := some "a" }, .ast "limit.json"⟩ env files
      ⟨.mysql, some "t", ["a"], "info"⟩ :=
    ⟨env, .unnamed rfl, Settings.resolve_eq_ok_iff.mp (by rfl)⟩
  have hunset : Settings.Chooses i.flags.table (({} : Environment).value? "CONDSPEC_TABLE") none :=
    .neither (by simp [i]) (by simp [Environment.value?])
  exact ⟨hdialect, .specFile (.failed rfl), .noTable rfl hloads hunset,
    ((run_answers_or_reports hcompile {} files).2.1 _).mpr hfirst, hprinted, hanswers.2, hanswers.1,
    (run_answers_or_reports hast {} files).2.2.2 hast' rfl rfl rfl hsettled hsettled',
    by decide +kernel⟩

end FilterQuery.Command
