import FilterQuery.Compile.Selection
import FilterQuery.Proofs.Compile.Parameters
import FilterQuery.Proofs.Compile.Trace
import Mathlib.Data.List.Forall2

/-!
# The account of a compilation

A selection reports what it skips. Its journal is what the draft hears, with every event at the
moment when it is reported. Each part of a condition is accounted for in it: a predicate by a test
or by one event, an empty group by one event, any other group by a scope, and by one event more if
nothing was tested there.
-/
namespace FilterQuery

namespace Step

def event? : Step → Option Event
  | note e => some e
  | _ => none

/-- The steps that tell of a predicate. -/
def ofPredicate : Step → Bool
  | test _ _ | note (.noList _ _) | note (.noPair _ _) | note (.unrecognized _) => true
  | _ => false

end Step

namespace Draft

/-- What a draft hears of steps, and as notes all that is reported, by it or to it. -/
def journal (d : Draft) : List Step → List Step
  | [] => []
  | s :: rest => [s].filter Step.isCall ++ ((d.step s).2.map .note ++ (d.step s).1.journal rest)

theorem journal_append (d : Draft) (ss ts : List Step) :
    d.journal (ss ++ ts) = d.journal ss ++ (d.after ss).journal ts := by
  induction ss generalizing d with
  | nil => rfl
  | cons s ss ih => rw [List.cons_append, journal, journal, ih, after_cons]; simp

/-- Where nothing is reported, the journal is what the draft hears. -/
theorem journal_of_silent {steps : List Step}
    (h : ∀ s ∈ steps, s.isCall = true ∧ ∀ d : Draft, (d.step s).2 = []) (d : Draft) :
    d.journal steps = steps := by
  induction steps generalizing d with
  | nil => rfl
  | cons s rest ih =>
    obtain ⟨hcall, hevents⟩ := h s List.mem_cons_self
    have hrest := ih (fun t ht => h t (List.mem_cons_of_mem _ ht)) (d.step s).1
    rw [journal, List.filter_cons_of_pos hcall, hevents, hrest]
    rfl

theorem test_mem_journal {d : Draft} {steps : List Step} {c : Connective} {t : Test} :
    .test c t ∈ d.journal steps ↔ .test c t ∈ steps := by
  induction steps generalizing d with
  | nil => rfl
  | cons s rest ih =>
    rw [journal, List.mem_append, List.mem_append, ih, List.mem_cons]
    have hself : .test c t ∈ [s].filter Step.isCall ↔ .test c t = s := by
      rw [List.mem_filter, List.mem_singleton]
      exact and_iff_left_of_imp fun _ => rfl
    simp [hself]

theorem journal_scope (d : Draft) (kind : Connective) (body : List Call) :
    d.journal (Call.scope kind body).steps =
      .opening kind :: ((d.openScope kind).journal (Call.stepsOfAll body) ++
        .closing :: ((d.openScope kind).runAll body).1.closeScope.2.map .note) := by
  have hclosing : ∀ e : Draft, e.journal [.closing] = .closing :: e.closeScope.2.map .note := by
    intro e
    rw [journal, journal, List.append_nil]
    rfl
  rw [Call.steps, journal, step, journal_append, after_stepsOfAll, hclosing]
  rfl

mutual

/-- All events of a run are in its journal. -/
theorem events_run (d : Draft) (c : Call) :
    (d.run c).2 = (d.journal c.steps).filterMap Step.event? := by
  cases c with
  | scope kind body =>
    have hbody := events_runAll (d.openScope kind) body
    have hclosing : ∀ es : List Event, (es.map Step.note).filterMap Step.event? = es := by
      intro es
      rw [List.filterMap_map]
      exact List.filterMap_some
    rw [journal_scope, List.filterMap_cons_none rfl, List.filterMap_append, ← hbody,
      List.filterMap_cons_none rfl, hclosing, run]
  | test _ _ | orderBy _ | offset _ | limit _ | note _ => rfl

theorem events_runAll (d : Draft) (cs : List Call) :
    (d.runAll cs).2 = (d.journal (Call.stepsOfAll cs)).filterMap Step.event? := by
  cases cs with
  | nil => rfl
  | cons c cs =>
    rw [Call.stepsOfAll, journal_append, List.filterMap_append, ← events_run d c, after_steps,
      ← events_runAll (d.run c).1 cs, runAll]

end

/-- A scope that closes is reported if it has no clauses. -/
theorem events_closeScope {d : Draft} {frame : Frame} {outer : List Frame}
    (h : d.frames = frame :: outer) :
    d.closeScope.2 = match frame.clauses with
      | [] => [.emptyScope frame.kind]
      | _ :: _ => [] := by
  simp only [closeScope, h]
  cases hclauses : frame.clauses with
  | nil => rfl
  | cons c cs => rw [Clause.combine_cons c.connector c.expr cs]

end Draft

namespace Call

mutual

/-- A call leaves no clause exactly if no test is made in it. -/
theorem clauses_eq_nil_iff (kind : Connective) (c : Call) :
    c.clauses kind = [] ↔ ∀ connector t, .test connector t ∉ c.steps := by
  cases c with
  | test connector t => simp [clauses, steps]
  | scope inner body =>
    have hbody := clausesOfAll_eq_nil_iff inner body
    simp [clauses, steps, Clause.combine_eq_none_iff, hbody]
  | orderBy _ | offset _ | limit _ | note _ => simp [clauses, steps]

theorem clausesOfAll_eq_nil_iff (kind : Connective) (cs : List Call) :
    clausesOfAll kind cs = [] ↔ ∀ connector t, .test connector t ∉ stepsOfAll cs := by
  cases cs with
  | nil => simp [clausesOfAll, stepsOfAll]
  | cons c cs =>
    have hc := clauses_eq_nil_iff kind c
    have hcs := clausesOfAll_eq_nil_iff kind cs
    simp [clausesOfAll, stepsOfAll, hc, hcs, forall_and]

end

end Call

namespace Predicate

/-- The predicates that are skipped, each with the event that tells of it. -/
inductive SkippedWith : Predicate → Event → Prop where
  | unrecognized (field : String) (operand : Operand) :
      SkippedWith ⟨.unrecognized, field, operand⟩ (.unrecognized field)
  | noList (field : String) (v : Scalar) :
      SkippedWith ⟨.oneOf, field, .scalar v⟩ (.noList field (.scalar v))
  | noPair (field : String) {operand : Operand}
      (short : ∀ low high rest, operand ≠ .list (low :: high :: rest)) :
      SkippedWith ⟨.between, field, operand⟩ (.noPair field operand)

/-- A predicate is accounted for by its own test, joined as its group says, or by its event. -/
inductive Accounted (parent : Connective) (p : Predicate) : Step → Prop where
  | tested {t : Test} (test : p.pruned? = some t.predicate) : Accounted parent p (.test parent t)
  | skipped {e : Event} (event : p.SkippedWith e) : Accounted parent p (.note e)

theorem Accounted.ofPredicate {parent : Connective} {p : Predicate} {s : Step}
    (h : p.Accounted parent s) : s.ofPredicate = true := by
  rcases h with _ | ⟨_ | _ | _⟩ <;> rfl

theorem skippedWith_of_test? {p : Predicate} {e : Event} (h : p.test? = .error e) :
    p.SkippedWith e := by
  obtain ⟨operator, field, operand⟩ := p
  cases operator with
  | unrecognized =>
    obtain rfl := Except.error.inj h
    exact .unrecognized field operand
  | oneOf =>
    cases operand with
    | scalar v =>
      obtain rfl := Except.error.inj h
      exact .noList field v
    | list vs => cases h
  | between =>
    rcases operand with v | (_ | ⟨low, _ | ⟨high, rest⟩⟩)
    · obtain rfl := Except.error.inj h
      exact .noPair field (by simp)
    · obtain rfl := Except.error.inj h
      exact .noPair field (by simp)
    · obtain rfl := Except.error.inj h
      exact .noPair field (by simp)
    · cases h
  | _ => cases h

end Predicate

namespace Condition

mutual

/-- What the journal says of a condition in a group of connective `parent`. -/
inductive Logged : Connective → Condition → List Step → Prop where
  | leaf {parent : Connective} {p : Predicate} {s : Step} (account : p.Accounted parent s) :
      Logged parent (.leaf p) [s]
  | emptyGroup (parent c : Connective) : Logged parent (.group c []) [.note (.emptyGroup c)]
  | scope {parent c : Connective} {x : Condition} {xs : List Condition} {log : List Step}
      (children : AllLogged c (x :: xs) log) (tested : ∃ connector t, .test connector t ∈ log) :
      Logged parent (.group c (x :: xs)) (.opening c :: (log ++ [.closing]))
  | emptyScope {parent c : Connective} {x : Condition} {xs : List Condition} {log : List Step}
      (children : AllLogged c (x :: xs) log) (untested : ∀ connector t, .test connector t ∉ log) :
      Logged parent (.group c (x :: xs))
        (.opening c :: (log ++ [.closing, .note (.emptyScope c)]))

inductive AllLogged : Connective → List Condition → List Step → Prop where
  | nil (parent : Connective) : AllLogged parent [] []
  | cons {parent : Connective} {x : Condition} {xs : List Condition} {log others : List Step}
      (head : Logged parent x log) (tail : AllLogged parent xs others) :
      AllLogged parent (x :: xs) (log ++ others)

end

mutual

theorem logged_call (d : Draft) (parent : Connective) (x : Condition) :
    Logged parent x (d.journal (x.call parent).steps) := by
  cases x with
  | leaf p =>
    have hpruned := p.pruned?_eq_test?
    rw [call, Predicate.call]
    cases htest : p.test? with
    | ok t =>
      rw [htest] at hpruned
      exact .leaf (.tested hpruned)
    | error e => exact .leaf (.skipped (Predicate.skippedWith_of_test? htest))
  | group c children =>
    cases children with
    | nil => exact .emptyGroup parent c
    | cons child children =>
      have hchildren := logged_calls (d.openScope c) c (child :: children)
      have hframes := Draft.frames_runAll (Draft.frames_openScope d c) (calls c (child :: children))
      have hclauses := Call.clausesOfAll_eq_nil_iff c (calls c (child :: children))
      rw [call, Draft.journal_scope, Draft.events_closeScope hframes]
      cases h : Call.clausesOfAll c (calls c (child :: children)) with
      | nil =>
        refine .emptyScope hchildren fun connector t htest => ?_
        exact hclauses.mp h connector t (Draft.test_mem_journal.mp htest)
      | cons first rest =>
        refine .scope hchildren (Classical.byContradiction fun huntested => ?_)
        have hnil := hclauses.mpr fun connector t htest =>
          huntested ⟨connector, t, Draft.test_mem_journal.mpr htest⟩
        rw [h] at hnil
        cases hnil

theorem logged_calls (d : Draft) (parent : Connective) (xs : List Condition) :
    AllLogged parent xs (d.journal (Call.stepsOfAll (calls parent xs))) := by
  cases xs with
  | nil => exact .nil parent
  | cons x xs =>
    rw [calls, Call.stepsOfAll, Draft.journal_append]
    exact .cons (logged_call d parent x) (logged_calls _ parent xs)

end

mutual

/-- Each predicate is accounted for once, in the order of the tree. -/
theorem Logged.accounts {parent : Connective} {x : Condition} {log : List Step}
    (h : Logged parent x log) :
    List.Forall₂ (fun p s => ∃ c, p.Accounted c s) x.leaves (log.filter Step.ofPredicate) :=
  match h with
  | .leaf account => by
    rw [List.filter_cons_of_pos account.ofPredicate]
    exact .cons ⟨_, account⟩ .nil
  | .emptyGroup _ _ => .nil
  | .scope children _ => by
    rw [List.filter_cons_of_neg (by simp [Step.ofPredicate]), List.filter_append]
    simpa [Step.ofPredicate, leaves] using children.accounts
  | .emptyScope children _ => by
    rw [List.filter_cons_of_neg (by simp [Step.ofPredicate]), List.filter_append]
    simpa [Step.ofPredicate, leaves] using children.accounts

theorem AllLogged.accounts {parent : Connective} {xs : List Condition} {log : List Step}
    (h : AllLogged parent xs log) :
    List.Forall₂ (fun p s => ∃ c, p.Accounted c s) (leavesOfAll xs) (log.filter Step.ofPredicate) :=
  match h with
  | .nil _ => .nil
  | .cons head tail => by
    rw [leavesOfAll, List.filter_append]
    exact List.rel_append head.accounts tail.accounts

end

theorem leaves_rooted (x : Condition) : x.rooted.leaves = x.leaves := by
  cases x <;> rfl

end Condition

theorem Condition.logged_root (d : Draft) (root : Option Condition) :
    AllLogged .and (root.map rooted).toList
      (d.journal (Call.stepsOfAll (root.map rootCall).toList)) := by
  cases root with
  | none => exact .nil .and
  | some x =>
    have hx := logged_calls d .and [x.rooted]
    rw [calls, ← rootCall_eq_call_rooted] at hx
    exact hx

theorem Spec.leavesOfAll_root (s : Spec Condition) :
    Condition.leavesOfAll (s.root.map Condition.rooted).toList = s.leaves := by
  rw [leaves]
  cases s.root with
  | none => rfl
  | some x => simp [Condition.leavesOfAll, Condition.leaves_rooted]

theorem Page.journal_steps (d : Draft) (p : Page) : d.journal p.steps = p.steps := by
  refine Draft.journal_of_silent (fun s hs => ?_) d
  rcases eq_of_mem_steps hs with ⟨key, rfl⟩ | ⟨n, rfl⟩ | ⟨n, rfl⟩ <;> exact ⟨rfl, fun _ => rfl⟩

theorem Page.filterMap_event?_steps (p : Page) : p.steps.filterMap Step.event? = [] := by
  rw [List.filterMap_eq_nil_iff]
  intro s hs
  rcases eq_of_mem_steps hs with ⟨key, rfl⟩ | ⟨n, rfl⟩ | ⟨n, rfl⟩ <;> rfl

/-- The journal of a spec is that of its condition, and its page. -/
theorem Spec.journal_calls (d : Draft) (s : Spec Condition) :
    d.journal (Call.stepsOfAll s.calls) =
      d.journal (Call.stepsOfAll (s.root.map Condition.rootCall).toList) ++ s.page.steps := by
  rw [calls, Call.stepsOfAll_append, Page.stepsOfAll_calls, Draft.journal_append,
    Page.journal_steps]

/-- A selection reports what the journal of its condition does, and the query at the end. -/
theorem Selection.events_make (dialect : Dialect) (table : String) (columns : List String)
    (s : Spec Condition) :
    let selection := make dialect table columns (some s)
    selection.events =
      (((Draft.ofTable table).withColumns columns).journal
        (Call.stepsOfAll (s.root.map Condition.rootCall).toList)).filterMap Step.event? ++
          [.generated dialect selection.params.length selection.sql] := by
  intro selection
  have hevents := Draft.events_runAll ((Draft.ofTable table).withColumns columns) s.calls
  rw [s.journal_calls, List.filterMap_append, s.page.filterMap_event?_steps,
    List.append_nil] at hevents
  rw [← hevents]
  rfl

/-- A selection accounts for every part of its condition, in the order of the tree, and reports
nothing else before the query is done. An operator that asks for no comparison has a test of its own
or is the unrecognized one. -/
theorem Selection.events_account (dialect : Dialect) (table : String) (columns : List String)
    (s : Spec Condition) :
    let fresh := (Draft.ofTable table).withColumns columns
    let selection := make dialect table columns (some s)
    (∃ log, fresh.journal (Call.stepsOfAll s.calls) = log ++ s.page.steps ∧
        Condition.AllLogged .and (s.root.map Condition.rooted).toList log ∧
        List.Forall₂ (fun p step => ∃ c, p.Accounted c step) s.leaves
          (log.filter Step.ofPredicate) ∧
        selection.events = log.filterMap Step.event? ++
          [.generated dialect selection.params.length selection.sql]) ∧
      ∀ o, Comparison.ofOperator o = none →
        o ∈ [.oneOf, .between, .isNull, .isNotNull, .unrecognized] := by
  intro fresh selection
  have hjournal := s.journal_calls fresh
  have hlogged := Condition.logged_root fresh s.root
  refine ⟨⟨_, hjournal, hlogged, ?_, events_make dialect table columns s⟩, fun o ho => ?_⟩
  · rw [← Spec.leavesOfAll_root]
    exact hlogged.accounts
  · cases o <;> simp_all [Comparison.ofOperator]

/-- A scope in which nothing was tested is reported after what was skipped in it. -/
example (field : String) (operand : Operand) :
    (Draft.ofTable "t").journal (Call.stepsOfAll
        (Condition.calls .and [.group .or [.leaf ⟨.unrecognized, field, operand⟩, .group .and []]])) =
      [.opening .or, .note (.unrecognized field), .note (.emptyGroup .and), .closing,
        .note (.emptyScope .or)] := rfl

end FilterQuery
