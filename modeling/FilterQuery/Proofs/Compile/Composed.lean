import FilterQuery.Proofs.Compile.Query

/-!
# Compiling into a draft that is in the making

A spec can be compiled into any draft, within open scopes as well. What it adds does not depend on
the draft but for one connective: its condition becomes a clause of the innermost frame, joined by
the kind of that frame. So specs that are compiled one after the other are joined by AND.
-/
namespace FilterQuery

/-- The draft after a spec, if there is one, has been compiled into it. -/
def Draft.compile (d : Draft) (spec : Option (Spec Condition)) : Draft :=
  (d.runAll ((spec.map Spec.calls).getD [])).1

/-- A selection renders the draft that its spec is compiled into. -/
theorem Selection.make_eq_render_compile (dialect : Dialect) (table : String)
    (columns : List String) (spec : Option (Spec Condition)) :
    let output := (((Draft.ofTable table).withColumns columns).compile spec).render dialect
    (make dialect table columns spec).sql = output.sql ∧
      (make dialect table columns spec).params = output.params := by
  cases spec <;> exact ⟨rfl, rfl⟩

namespace Draft

/-- Frames and page are all that calls can change. -/
theorem Settled.eq_with {before after : Draft} {p : Page} {frames : List Frame}
    (h : Settled before p after) (hframes : after.frames = frames) :
    after = { before with frames, order := p.sorts, offset := p.offset, limit := p.limit } := by
  obtain ⟨htable, hcolumns, rfl⟩ := h
  subst hframes
  rw [← htable, ← hcolumns]
  rfl

/-- What a spec adds to a draft that has a frame. -/
theorem compile_some {d : Draft} {frame : Frame} {outer : List Frame}
    (h : d.frames = frame :: outer) (s : Spec Condition) :
    d.compile (some s) =
      { d with
        frames := frame.add ((s.root.bind Condition.expr?).map (Clause.mk frame.kind)).toList :: outer
        order := d.order ++ s.sorts
        offset := s.page.offset.or d.offset
        limit := s.page.limit.or d.limit } := by
  have hsettled := settled_runAll d s.calls
  have hframes := frames_runAll h s.calls
  rw [Spec.pageOfAll_calls] at hsettled
  rw [Spec.clauses_calls] at hframes
  exact hsettled.eq_with hframes

/-- Specs in a row add their clauses and their sorts in a row. -/
theorem compile_foldl {d : Draft} {frame : Frame} {outer : List Frame}
    (h : d.frames = frame :: outer) (specs : List (Spec Condition)) :
    let e := specs.foldl (fun d s => d.compile (some s)) d
    e.frames = frame.add ((specs.filterMap fun s => s.root.bind Condition.expr?).map
        (Clause.mk frame.kind)) :: outer ∧
      e.order = d.order ++ specs.flatMap Spec.sorts := by
  induction specs generalizing d frame with
  | nil => simp [h]
  | cons s specs ih =>
    have hs := compile_some h s
    have hframes := congrArg Draft.frames hs
    have horder := congrArg Draft.order hs
    obtain ⟨hrest, hsorts⟩ := ih hframes
    constructor
    · rw [List.foldl_cons, hrest, Frame.add_add, Frame.kind_add, List.filterMap_cons]
      cases s.root.bind Condition.expr? <;> rfl
    · rw [List.foldl_cons, hsorts, horder, List.append_assoc, List.flatMap_cons]

/-- What compiling a spec adds is the same for every draft: its condition in a fresh draft, as one
clause of the innermost frame, its sorts, and its offset and limit if it has them. Hence the
conditions of several specs are joined by AND, from the left, and their sorts follow each other. -/
theorem compile_composes (table : String) (columns : List String)
    (specs : List (Spec Condition)) :
    let fresh := (ofTable table).withColumns columns
    let condition := fun s : Spec Condition => (fresh.compile (some s)).toSelect.condition
    (∀ (s : Spec Condition) (d : Draft) (frame : Frame) (outer : List Frame),
      d.frames = frame :: outer →
        d.compile (some s) =
          { d with
            frames := frame.add ((condition s).map (Clause.mk frame.kind)).toList :: outer
            order := d.order ++ s.sorts
            offset := s.page.offset.or d.offset
            limit := s.page.limit.or d.limit }) ∧
      (let d := specs.foldl (fun d s => d.compile (some s)) fresh;
        d.toSelect.condition = Clause.joinAll .and (specs.filterMap condition) ∧
          d.toSelect.order = (specs.flatMap Spec.sorts).map orderItem) ∧
      ∀ d : Draft, d.compile none = d := by
  intro fresh condition
  have hcondition : condition = fun s => s.root.bind Condition.expr? :=
    funext fun s => Spec.condition_calls table columns s
  rw [hcondition]
  refine ⟨fun s d frame outer h => compile_some h s, ?_, fun d => rfl⟩
  have hfresh : fresh.frames = [⟨.and, []⟩] := rfl
  obtain ⟨hframes, horder⟩ := compile_foldl hfresh specs
  constructor
  · simp only [toSelect, hframes, List.getLast?_singleton, Option.bind_some, Frame.add,
      List.nil_append, Clause.combine_map_mk]
  · simp only [toSelect, horder]
    rfl

end Draft

end FilterQuery
