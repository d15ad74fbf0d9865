import FilterQuery.Proofs.Compile.Query
import FilterQuery.Proofs.Draft.Steps
import Mathlib.Data.List.Induction

/-!
# Open scopes

At every moment of a run the frames of a draft are those of the open scopes on top of the one of the
query. Steps within a scope leave the frames below it alone, so the condition of the query stays as
it was when the outermost scope was opened. The page belongs to no frame and changes at once.
-/
namespace FilterQuery

namespace Step

/-- The kinds of the open scopes after a step, innermost first. Where none is open, none can be
closed. -/
def scopes (kinds : List Connective) : Step → Option (List Connective)
  | opening kind => some (kind :: kinds)
  | closing => kinds.tail?
  | test _ _ | orderBy _ | offset _ | limit _ | note _ => some kinds

def scopesOfAll (kinds : List Connective) (steps : List Step) : Option (List Connective) :=
  steps.foldlM scopes kinds

@[simp] theorem scopesOfAll_nil (kinds : List Connective) : scopesOfAll kinds [] = some kinds := rfl

theorem scopesOfAll_cons (kinds : List Connective) (s : Step) (rest : List Step) :
    scopesOfAll kinds (s :: rest) = (s.scopes kinds).bind (scopesOfAll · rest) := List.foldlM_cons

theorem scopesOfAll_append (kinds : List Connective) (ss ts : List Step) :
    scopesOfAll kinds (ss ++ ts) = (scopesOfAll kinds ss).bind (scopesOfAll · ts) :=
  List.foldlM_append

theorem scopesOfAll_concat (kinds : List Connective) (ss : List Step) (s : Step) :
    scopesOfAll kinds (ss ++ [s]) = (scopesOfAll kinds ss).bind s.scopes := by
  simp [scopesOfAll_append, scopesOfAll_cons]

/-- If scopes are open, the opening of the outermost parts the steps: before it nothing was open,
and no step after it closes it. -/
theorem exists_outermost {steps : List Step} {kinds : List Connective} {kind : Connective}
    (h : scopesOfAll [] steps = some (kinds ++ [kind])) :
    ∃ before inside, steps = before ++ .opening kind :: inside ∧
      scopesOfAll [] before = some [] ∧ scopesOfAll [] inside = some kinds := by
  induction steps using List.reverseRecOn generalizing kinds with
  | nil => simp at h
  | append_singleton steps s ih =>
    rw [scopesOfAll_concat] at h
    obtain ⟨below, hbelow, hs⟩ := Option.bind_eq_some_iff.mp h
    -- A step that leaves the scope open is one more step within it.
    have extend : ∀ inner, below = inner ++ [kind] → s.scopes inner = some kinds →
        ∃ before inside, steps ++ [s] = before ++ .opening kind :: inside ∧
          scopesOfAll [] before = some [] ∧ scopesOfAll [] inside = some kinds := by
      intro inner hinner hscopes
      rw [hinner] at hbelow
      obtain ⟨before, inside, rfl, hbefore, hinside⟩ := ih hbelow
      refine ⟨before, inside ++ [s], by simp, hbefore, ?_⟩
      rw [scopesOfAll_concat, hinside, Option.bind_some, hscopes]
    cases s with
    | opening k =>
      have hk : k :: below = kinds ++ [kind] := Option.some.inj hs
      cases kinds with
      | nil =>
        obtain ⟨rfl, rfl⟩ := List.cons.inj hk
        exact ⟨steps, [], rfl, hbelow, rfl⟩
      | cons j kinds =>
        obtain ⟨rfl, rfl⟩ := List.cons.inj hk
        exact extend kinds rfl rfl
    | closing =>
      cases below with
      | nil => cases hs
      | cons j below =>
        obtain rfl : below = kinds ++ [kind] := Option.some.inj hs
        exact extend (j :: kinds) rfl rfl
    | test _ _ | orderBy _ | offset _ | limit _ | note _ =>
      exact extend kinds (Option.some.inj hs) rfl

def sortKey? : Step → Option SortKey
  | orderBy key => some key
  | _ => none

def offset? : Step → Option UInt64
  | offset n => some n
  | _ => none

def limit? : Step → Option UInt64
  | limit n => some n
  | _ => none

end Step

namespace Call

mutual

/-- A call closes the scopes that it opens, and no others. -/
theorem scopesOfAll_steps (kinds : List Connective) (c : Call) :
    Step.scopesOfAll kinds c.steps = some kinds := by
  cases c with
  | scope kind body =>
    have hbody := scopesOfAll_stepsOfAll (kind :: kinds) body
    rw [steps, Step.scopesOfAll_cons, Step.scopes, Option.bind_some, Step.scopesOfAll_concat, hbody]
    rfl
  | test _ _ | orderBy _ | offset _ | limit _ | note _ => rfl

theorem scopesOfAll_stepsOfAll (kinds : List Connective) (cs : List Call) :
    Step.scopesOfAll kinds (stepsOfAll cs) = some kinds := by
  cases cs with
  | nil => rfl
  | cons c cs =>
    rw [stepsOfAll, Step.scopesOfAll_append, scopesOfAll_steps kinds c, Option.bind_some,
      scopesOfAll_stepsOfAll kinds cs]

end

/-- At no moment of a run has a scope been closed that was not open. -/
theorem exists_scopes_take (cs : List Call) (i : Nat) :
    ∃ kinds, Step.scopesOfAll [] ((stepsOfAll cs).take i) = some kinds := by
  have h := scopesOfAll_stepsOfAll [] cs
  rw [← List.take_append_drop i (stepsOfAll cs), Step.scopesOfAll_append] at h
  obtain ⟨kinds, hkinds, _⟩ := Option.bind_eq_some_iff.mp h
  exact ⟨kinds, hkinds⟩

end Call

namespace Draft

/-- The frames of a draft while scopes of these kinds are open on top of `base`, which may have got
more clauses, and of the frames around it. -/
def Within (base : Frame) (outer : List Frame) (kinds : List Connective) (d : Draft) : Prop :=
  ∃ inner added, d.frames = inner ++ base.add added :: outer ∧ inner.map Frame.kind = kinds

variable {base : Frame} {outer : List Frame} {kinds kinds' : List Connective} {d e : Draft}

theorem Within.start (h : d.frames = base :: outer) : Within base outer [] d :=
  ⟨[], [], by simp [h], rfl⟩

/-- Clauses for the innermost frame. -/
theorem Within.add {frame : Frame} {rest : List Frame} {cs : List Clause}
    (h : Within base outer kinds d) (hd : d.frames = frame :: rest)
    (he : e.frames = frame.add cs :: rest) : Within base outer kinds e := by
  obtain ⟨inner, added, hframes, hkinds⟩ := h
  rw [hframes] at hd
  cases inner with
  | nil =>
    obtain ⟨rfl, rfl⟩ := List.cons.inj hd
    exact ⟨[], added ++ cs, by simp [he], hkinds⟩
  | cons top inner =>
    obtain ⟨rfl, rfl⟩ := List.cons.inj hd
    exact ⟨top.add cs :: inner, added, he, hkinds⟩

/-- There is always a frame for the next clause. -/
theorem Within.exists_frame (h : Within base outer kinds d) :
    ∃ frame rest, d.frames = frame :: rest := by
  obtain ⟨inner, added, hframes, _⟩ := h
  refine List.exists_cons_of_ne_nil ?_
  rw [hframes]
  simp

/-- While a scope is open there is a frame around the innermost one. -/
theorem Within.exists_around {kind : Connective} (h : Within base outer (kind :: kinds) d) :
    ∃ frame around rest, d.frames = frame :: around :: rest ∧
      Within base outer kinds { d with frames := around :: rest } := by
  obtain ⟨inner, added, hframes, hkinds⟩ := h
  cases inner with
  | nil => cases hkinds
  | cons frame inner =>
    obtain ⟨-, rfl⟩ := List.cons.inj hkinds
    cases inner with
    | nil => exact ⟨frame, base.add added, outer, hframes, [], added, rfl, rfl⟩
    | cons around inner =>
      exact ⟨frame, around, inner ++ base.add added :: outer, hframes, around :: inner, added, rfl,
        rfl⟩

/-- A step keeps to the frames of the open scopes. -/
theorem Within.step {s : Step} (h : Within base outer kinds d) (hs : s.scopes kinds = some kinds') :
    Within base outer kinds' (d.step s).1 := by
  cases s with
  | opening kind =>
    obtain rfl : kind :: kinds = kinds' := Option.some.inj hs
    obtain ⟨inner, added, hframes, rfl⟩ := h
    exact ⟨⟨kind, []⟩ :: inner, added, congrArg (List.cons _) hframes, rfl⟩
  | closing =>
    cases kinds with
    | nil => cases hs
    | cons kind kinds =>
      obtain rfl : kinds = kinds' := Option.some.inj hs
      obtain ⟨frame, around, rest, hframes, haround⟩ := h.exists_around
      exact haround.add rfl (frames_closeScope hframes)
  | test connector t =>
    obtain rfl : kinds = kinds' := Option.some.inj hs
    obtain ⟨frame, rest, hframes⟩ := h.exists_frame
    exact h.add hframes (frames_push hframes connector t.expr)
  | orderBy _ | offset _ | limit _ | note _ =>
    obtain rfl : kinds = kinds' := Option.some.inj hs
    exact h

theorem Within.after {steps : List Step} (h : Within base outer kinds d)
    (hs : Step.scopesOfAll kinds steps = some kinds') :
    Within base outer kinds' (d.after steps) := by
  induction steps generalizing d kinds with
  | nil =>
    obtain rfl : kinds = kinds' := Option.some.inj hs
    exact h
  | cons s rest ih =>
    rw [Step.scopesOfAll_cons] at hs
    obtain ⟨next, hnext, hrest⟩ := Option.bind_eq_some_iff.mp hs
    exact ih (h.step hnext) hrest

theorem Within.kinds_frames (h : Within base [] kinds d) :
    d.frames.map Frame.kind = kinds ++ [base.kind] := by
  obtain ⟨inner, added, hframes, rfl⟩ := h
  simp [hframes]

/-- What happens in a scope does not show in the condition of the query until it is closed. -/
theorem condition_after_opening {inside : List Step} (hd : d.frames ≠ []) (kind : Connective)
    (h : Step.scopesOfAll [] inside = some kinds) :
    (d.after (.opening kind :: inside)).toSelect.condition = d.toSelect.condition := by
  have hopened : Within ⟨kind, []⟩ d.frames [] (d.openScope kind) :=
    .start (frames_openScope d kind)
  obtain ⟨inner, added, hframes, _⟩ := hopened.after h
  obtain ⟨frame, rest, hcons⟩ := List.exists_cons_of_ne_nil hd
  have hlast : (d.after (.opening kind :: inside)).frames.getLast? = d.frames.getLast? := by
    rw [after_cons, step, hframes, hcons]
    simp [List.getLast?_cons]
  simp only [toSelect, hlast]

/-- The page after steps: all sorts, and the last offset and limit. Scopes have no part in it. -/
theorem page_after (d : Draft) (steps : List Step) :
    (d.after steps).page =
      ⟨d.order ++ steps.filterMap Step.sortKey?,
        (steps.filterMap Step.offset?).getLast?.or d.offset,
        (steps.filterMap Step.limit?).getLast?.or d.limit⟩ := by
  induction steps generalizing d with
  | nil => simp [page]
  | cons s rest ih =>
    rw [after_cons, ih]
    cases s with
    | opening kind => rfl
    | closing =>
      have hclose := (settled_closeScope d).page
      obtain ⟨horder, hoffset, hlimit⟩ := Page.mk.inj hclose
      rw [step, horder, hoffset, hlimit]
      rfl
    | test connector t =>
      have hpush := (settled_push d connector t.expr).page
      obtain ⟨horder, hoffset, hlimit⟩ := Page.mk.inj hpush
      rw [step, run, horder, hoffset, hlimit]
      rfl
    | orderBy key => simp [step, run, Step.sortKey?, Step.offset?, Step.limit?]
    | offset n =>
      have hlast : ((Step.offset n :: rest).filterMap Step.offset?).getLast? =
          some ((rest.filterMap Step.offset?).getLast?.getD n) := List.getLast?_cons
      rw [hlast]
      cases (rest.filterMap Step.offset?).getLast? <;> rfl
    | limit n =>
      have hlast : ((Step.limit n :: rest).filterMap Step.limit?).getLast? =
          some ((rest.filterMap Step.limit?).getLast?.getD n) := List.getLast?_cons
      rw [hlast]
      cases (rest.filterMap Step.limit?).getLast? <;> rfl
    | note e => rfl

/-- The clauses that a call adds to the innermost frame, which is of kind `kind`, until it is
completed. A scope adds one, joined by that kind, if the calls in it left any. -/
inductive Adds (d : Draft) (kind : Connective) : Call → List Clause → Prop where
  | test (connector : Connective) (t : Test) : Adds d kind (.test connector t) [⟨connector, t.expr⟩]
  | scope {inner : Connective} {body : List Call} {first : Clause} {rest : List Clause} {e : Expr}
      (left : ((d.openScope inner).runAll body).1.frames = ⟨inner, first :: rest⟩ :: d.frames)
      (chain : Clause.combine (first :: rest) = some e) :
      Adds d kind (.scope inner body) [⟨kind, e⟩]
  | emptyScope {inner : Connective} {body : List Call}
      (left : ((d.openScope inner).runAll body).1.frames = ⟨inner, []⟩ :: d.frames) :
      Adds d kind (.scope inner body) []
  | orderBy (key : SortKey) : Adds d kind (.orderBy key) []
  | offset (n : UInt64) : Adds d kind (.offset n) []
  | limit (n : UInt64) : Adds d kind (.limit n) []
  | note (e : Event) : Adds d kind (.note e) []

theorem adds_clauses (d : Draft) (kind : Connective) (c : Call) :
    d.Adds kind c (c.clauses kind) := by
  cases c with
  | test connector t => exact .test connector t
  | scope inner body =>
    have hleft := frames_runAll (frames_openScope d inner) body
    rw [Call.clauses]
    cases hclauses : Call.clausesOfAll inner body with
    | nil =>
      rw [hclauses] at hleft
      exact .emptyScope hleft
    | cons first rest =>
      obtain ⟨connector, e⟩ := first
      have hchain := Clause.combine_cons connector e rest
      rw [hclauses] at hleft
      rw [hchain]
      exact .scope hleft hchain
  | orderBy key => exact .orderBy key
  | offset n => exact .offset n
  | limit n => exact .limit n
  | note e => exact .note e

/-- No frame is missing: a clause finds one to be added to, and a scope that closes finds its own
and one around it. -/
def Framed (d : Draft) : Step → Prop
  | .test _ _ => ∃ frame rest, d.frames = frame :: rest
  | .closing => ∃ frame around rest, d.frames = frame :: around :: rest
  | _ => True

theorem Within.framed {s : Step} (h : Within base outer kinds d)
    (hs : s.scopes kinds = some kinds') : d.Framed s := by
  cases s with
  | test _ _ => exact h.exists_frame
  | closing =>
    cases kinds with
    | nil => cases hs
    | cons kind kinds =>
      obtain ⟨frame, around, rest, hframes, _⟩ := h.exists_around
      exact ⟨frame, around, rest, hframes⟩
  | opening _ | orderBy _ | offset _ | limit _ | note _ => trivial

/-- What shows in a draft when these steps have been made and scopes of these kinds, innermost
first, are open. -/
structure Observed (start : Draft) (steps : List Step) (kinds : List Connective) : Prop where
  opened : Step.scopesOfAll [] steps = some kinds
  /-- A frame for each open scope, and below them one of kind AND. -/
  frames : (start.after steps).frames.map Frame.kind = kinds ++ [.and]
  /-- A call changes the innermost frame only, whichever call comes next. -/
  completed : ∀ c : Call, ∃ frame outer clauses, (start.after steps).frames = frame :: outer ∧
    (start.after steps).Adds frame.kind c clauses ∧
    ((start.after steps).run c).1.frames = frame.add clauses :: outer
  /-- Within scopes the condition is the one from before the outermost of them was opened. -/
  condition : kinds ≠ [] → ∃ before kind inside, steps = before ++ .opening kind :: inside ∧
    Step.scopesOfAll [] before = some [] ∧ Step.scopesOfAll [] inside = some kinds.dropLast ∧
    (start.after steps).toSelect.condition = (start.after before).toSelect.condition
  order : (start.after steps).toSelect.order = (steps.filterMap Step.sortKey?).map orderItem
  offset : (start.after steps).toSelect.offset = (steps.filterMap Step.offset?).getLast?.map count
  limit : (start.after steps).toSelect.limit = (steps.filterMap Step.limit?).getLast?.map count

theorem observed {table : String} {columns : List String} {steps : List Step}
    (hsteps : Step.scopesOfAll [] steps = some kinds) :
    Observed ((ofTable table).withColumns columns) steps kinds := by
  have hfresh : Within ⟨.and, []⟩ [] [] ((ofTable table).withColumns columns) := .start rfl
  have hwithin := hfresh.after hsteps
  have hpage := page_after ((ofTable table).withColumns columns) steps
  obtain ⟨horder, hoffset, hlimit⟩ := Page.mk.inj hpage
  refine ⟨hsteps, hwithin.kinds_frames, fun c => ?_, fun hopen => ?_, ?_, ?_, ?_⟩
  · obtain ⟨frame, outer, hframes⟩ := hwithin.exists_frame
    exact ⟨frame, outer, c.clauses frame.kind, hframes, adds_clauses _ _ c, frames_run hframes c⟩
  · have houtermost := hsteps
    rw [← List.dropLast_concat_getLast hopen] at houtermost
    obtain ⟨before, inside, hparts, hbefore, hinside⟩ := Step.exists_outermost houtermost
    refine ⟨before, kinds.getLast hopen, inside, hparts, hbefore, hinside, ?_⟩
    obtain ⟨frame, rest, hframes⟩ := (hfresh.after hbefore).exists_frame
    rw [hparts, after_append]
    exact condition_after_opening (by simp [hframes]) _ hinside
  · simp only [toSelect, horder]
    rfl
  · simp only [toSelect, hoffset]
    simp [ofTable, withColumns]
  · simp only [toSelect, hlimit]
    simp [ofTable, withColumns]

/-- A run is made in steps. After any number of them the frames are those of the open scopes, and
the step that comes next finds the frames that it needs. -/
theorem runAll_observed (table : String) (columns : List String) (calls : List Call) :
    let start := (ofTable table).withColumns columns
    (start.runAll calls).1 = start.after (Call.stepsOfAll calls) ∧
      ∀ i, ∃ kinds, Observed start ((Call.stepsOfAll calls).take i) kinds ∧
        ∀ s, (Call.stepsOfAll calls)[i]? = some s →
          (start.after ((Call.stepsOfAll calls).take i)).Framed s := by
  intro start
  refine ⟨(after_stepsOfAll start calls).symm, fun i => ?_⟩
  obtain ⟨kinds, hkinds⟩ := Call.exists_scopes_take calls i
  refine ⟨kinds, observed hkinds, fun s hs => ?_⟩
  obtain ⟨next, hnext⟩ := Call.exists_scopes_take calls (i + 1)
  rw [List.take_add_one, hs, Option.toList_some, Step.scopesOfAll_concat, hkinds,
    Option.bind_some] at hnext
  have hfresh : Within ⟨.and, []⟩ [] [] start := .start rfl
  exact (hfresh.after hkinds).framed hnext

end Draft

end FilterQuery
