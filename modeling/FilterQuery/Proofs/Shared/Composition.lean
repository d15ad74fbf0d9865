import FilterQuery.Proofs.Compile.Meaning
import FilterQuery.Proofs.Shared.Frames
import FilterQuery.Proofs.Shared.Walks

/-!
# Composing a spec condition by condition

Each condition that is added to a spec goes beside the whole of what was there, in a group of its
own. Main statement: the condition of the query is read from left to right, whatever connectives are
mixed; and each addition makes the tree deeper by one level, with the old root in the first place.
-/
namespace FilterQuery

/-- Two sides under a connective. A side that says nothing is left out with the connective. -/
def Truth.beside (c : Connective) : Option Truth → Option Truth → Option Truth
  | some a, some b => some (join c a b)
  | some a, none => some a
  | none, b => b

namespace Condition

/-- The group that joins a condition to a root says what the two say side by side. -/
theorem truth?_joined (v : Valuation) (c : Connective) (root : Option Condition) (x : Condition) :
    (group c (Spec.joined root x)).truth? v =
      Truth.beside c (root.bind (truth? v)) (x.truth? v) := by
  cases root with
  | none =>
    show Truth.joinAll c ((x.truth? v).toList ++ []) = x.truth? v
    rw [List.append_nil]
    cases x.truth? v <;> rfl
  | some y =>
    show Truth.joinAll c ((y.truth? v).toList ++ ((x.truth? v).toList ++ [])) =
      Truth.beside c (y.truth? v) (x.truth? v)
    rw [List.append_nil]
    cases y.truth? v <;> cases x.truth? v <;> rfl

end Condition

/-- One step in composing a spec: a node is made, or one is joined to the root. -/
inductive Joining where
  | make (n : Node)
  | join (node : Handle) (c : Connective)

namespace Joining

/-- The handles that are put into a node. -/
def handles : Joining → List Handle
  | make n => n.children
  | join node _ => [node]

/-- What is joined, and how. -/
def joined? : Joining → Option (Handle × Connective)
  | make _ => none
  | join node c => some (node, c)

end Joining

namespace Store

/-- What the tree of a handle says in a query, if it says anything. -/
def truth? (s : Store) (v : Valuation) (h : Handle) : Option Truth :=
  (s.unfold h).bind (Condition.truth? v)

theorem Stands.truth?_eq {s : Store} {h : Handle} {t : Condition} (ht : Stands s h t)
    (v : Valuation) : s.truth? v h = t.truth? v := by
  rw [truth?, ht.unfold_eq, Option.bind_some]

/-- Joining a node to the root that a spec had in `s` gives `root` in `s'`. -/
structure Joined (s : Store) (before : Option Handle) (node : Handle) (c : Connective) (s' : Store)
    (root : Handle) : Prop where
  kept : s.Keeps s'
  alone : before = none → s'.get? root = some (.group c [node]) ∧
    ∃ b, s.depth node = some b ∧ s'.depth root = some (1 + b)
  below : ∀ old, before = some old → s'.get? root = some (.group c [old, node]) ∧
    (∃ t, s.unfold old = some t ∧ s'.unfold old = some t) ∧
    ∃ a b, s.depth old = some a ∧ s.depth node = some b ∧ s'.depth root = some (1 + max a b)

end Store

namespace SharedSpec

def joining (state : SharedSpec × Store) : Joining → SharedSpec × Store
  | .make n => (state.1, (state.2.add n).2)
  | .join node c => SharedSpec.addCondition state.1 state.2 node c

def compose (state : SharedSpec × Store) (steps : List Joining) : SharedSpec × Store :=
  steps.foldl joining state

/-- Each step uses handles only that the store has by then. -/
def Composable (state : SharedSpec × Store) : List Joining → Prop
  | [] => True
  | step :: steps => (∀ k ∈ step.handles, k ∈ state.2) ∧ Composable (joining state step) steps

/-- The store is sound and has the root. -/
structure Rooted (state : SharedSpec × Store) : Prop where
  store : state.2.Sound
  root : ∀ h ∈ state.1.root, h ∈ state.2

theorem keeps_joining (state : SharedSpec × Store) (step : Joining) :
    state.2.Keeps (joining state step).2 := by
  cases step with
  | make n => exact state.2.keeps_add n
  | join node c => exact state.2.keeps_add _

theorem keeps_compose (state : SharedSpec × Store) (steps : List Joining) :
    state.2.Keeps (compose state steps).2 := by
  induction steps generalizing state with
  | nil => exact .refl _
  | cons step steps ih => exact (keeps_joining state step).trans (ih (joining state step))

theorem Rooted.step {state : SharedSpec × Store} (h : Rooted state) {step : Joining}
    (hstep : ∀ k ∈ step.handles, k ∈ state.2) : Rooted (joining state step) := by
  cases step with
  | make n => exact ⟨h.store.add hstep, fun k hk => (state.2.keeps_add n).mem (h.root k hk)⟩
  | join node c =>
    refine ⟨h.store.add_joined h.root (hstep node (List.mem_singleton.mpr rfl)) c, fun k hk => ?_⟩
    cases hk
    exact Store.mem_add_self _ _

theorem Rooted.run {state : SharedSpec × Store} (h : Rooted state) {steps : List Joining}
    (hsteps : Composable state steps) : Rooted (compose state steps) := by
  induction steps generalizing state with
  | nil => exact h
  | cons step steps ih => exact ih (h.step hsteps.1) hsteps.2

theorem composable_append {state : SharedSpec × Store} {before after : List Joining} :
    Composable state (before ++ after) ↔
      Composable state before ∧ Composable (compose state before) after := by
  induction before generalizing state with
  | nil => exact ⟨fun h => ⟨trivial, h⟩, fun h => h.2⟩
  | cons step before ih =>
    have hrest := @ih (joining state step)
    constructor
    · intro h
      obtain ⟨hbefore, hafter⟩ := hrest.mp h.2
      exact ⟨⟨h.1, hbefore⟩, hafter⟩
    · intro h
      exact ⟨h.1.1, hrest.mpr ⟨h.1.2, h.2⟩⟩

/-- What the root says in a query, if there is one and it says anything. -/
def truth? (state : SharedSpec × Store) (v : Valuation) : Option Truth :=
  state.1.root.bind (state.2.truth? v)

end SharedSpec

namespace Store

theorem truth?_eq {s : Store} {before : Option Handle} {t : Option Condition}
    (ht : Option.Rel (Stands s) before t) (v : Valuation) :
    before.bind (s.truth? v) = t.bind (Condition.truth? v) := by
  cases ht with
  | none => rfl
  | some hroot => exact hroot.truth?_eq v

/-- The new root stands for the old tree and the node, joined. -/
theorem stands_joined {s : Store} {before : Option Handle} {t : Option Condition}
    (ht : Option.Rel (Stands s) before t) {node : Handle} {x : Condition} (hx : Stands s node x)
    (c : Connective) :
    Stands (s.add (.group c (Spec.joined before node))).2
      (s.add (.group c (Spec.joined before node))).1 (.group c (Spec.joined t x)) := by
  have hkeeps := s.keeps_add (.group c (Spec.joined before node))
  have hnode := hkeeps.stands hx
  apply Stands.group (s.get?_add_self _)
  cases ht with
  | none => exact .cons hnode .nil
  | some hroot => exact .cons (hkeeps.stands hroot) (.cons hnode .nil)

theorem joined_add {s : Store} {before : Option Handle} {t : Option Condition}
    (ht : Option.Rel (Stands s) before t) {node : Handle} {x : Condition} (hx : Stands s node x)
    (c : Connective) :
    Joined s before node c (s.add (.group c (Spec.joined before node))).2
      (s.add (.group c (Spec.joined before node))).1 := by
  have hkeeps := s.keeps_add (.group c (Spec.joined before node))
  have hget := s.get?_add_self (.group c (Spec.joined before node))
  have hdepth := (stands_joined ht hx c).readsAs.depth_eq
  cases ht with
  | none =>
    refine ⟨hkeeps, fun _ => ⟨hget, x.depth, hx.readsAs.depth_eq, ?_⟩, fun old hold => (nomatch hold)⟩
    simpa [Spec.joined, Condition.depth, Condition.depths] using hdepth
  | @some root y hroot =>
    refine ⟨hkeeps, fun hnone => (nomatch hnone), fun old hold => ?_⟩
    cases hold
    refine ⟨hget, ⟨y, hroot.unfold_eq, (hkeeps.stands hroot).unfold_eq⟩, y.depth, x.depth,
      hroot.readsAs.depth_eq, hx.readsAs.depth_eq, ?_⟩
    simpa [Spec.joined, Condition.depth, Condition.depths] using hdepth

end Store

namespace SharedSpec

theorem Rooted.joined {state : SharedSpec × Store} (h : Rooted state) {node : Handle}
    (hnode : node ∈ state.2) (c : Connective) :
    ∃ root, (joining state (.join node c)).1.root = some root ∧
      Store.Joined state.2 state.1.root node c (joining state (.join node c)).2 root := by
  obtain ⟨t, ht⟩ := h.store.exists_rel_stands h.root
  obtain ⟨x, hx⟩ := h.store.exists_stands hnode
  exact ⟨_, rfl, Store.joined_add ht hx c⟩

/-- A node that is made says nothing yet; one that is joined goes beside all that there was. -/
theorem Rooted.truth?_joining {state : SharedSpec × Store} (h : Rooted state) {step : Joining}
    (hstep : ∀ k ∈ step.handles, k ∈ state.2) (v : Valuation) :
    truth? (joining state step) v = step.joined?.elim (truth? state v)
      fun (node, c) => Truth.beside c (truth? state v) (state.2.truth? v node) := by
  obtain ⟨t, ht⟩ := h.store.exists_rel_stands h.root
  cases step with
  | make n =>
    have hnew : truth? (joining state (.make n)) v = t.bind (Condition.truth? v) :=
      Store.truth?_eq ((state.2.keeps_add n).rel_stands ht) v
    rw [hnew, ← Store.truth?_eq ht]
    rfl
  | join node c =>
    obtain ⟨x, hx⟩ := h.store.exists_stands (hstep node (List.mem_singleton.mpr rfl))
    have hnew : truth? (joining state (.join node c)) v =
        (Condition.group c (Spec.joined t x)).truth? v :=
      (Store.stands_joined ht hx c).truth?_eq v
    rw [hnew, Condition.truth?_joined, ← Store.truth?_eq ht, ← hx.truth?_eq]
    rfl

/-- All that is joined goes beside what was there, from left to right. -/
theorem Rooted.truth?_compose {state : SharedSpec × Store} (h : Rooted state)
    {steps : List Joining} (hsteps : Composable state steps) (v : Valuation) :
    truth? (compose state steps) v =
      (steps.filterMap Joining.joined?).foldl
        (fun t (node, c) => Truth.beside c t ((compose state steps).2.truth? v node))
        (truth? state v) := by
  induction steps generalizing state with
  | nil => rfl
  | cons step steps ih =>
    have hrest := ih (h.step hsteps.1) hsteps.2
    have hfirst := h.truth?_joining hsteps.1 v
    have hkeeps := keeps_compose state (step :: steps)
    show truth? (compose (joining state step) steps) v = _
    rw [hrest, hfirst]
    cases step with
    | make n => rfl
    | join node c =>
      obtain ⟨x, hx⟩ := h.store.exists_stands (hsteps.1 node (List.mem_singleton.mpr rfl))
      have hsame : state.2.truth? v node =
          (compose state (.join node c :: steps)).2.truth? v node := by
        rw [hx.truth?_eq, (hkeeps.stands hx).truth?_eq]
      show (steps.filterMap Joining.joined?).foldl _
        (Truth.beside c (truth? state v) (state.2.truth? v node)) = _
      rw [hsame]
      rfl

/-- The condition of the query says what the root says. -/
theorem Rooted.truth_condition {state : SharedSpec × Store} (h : Rooted state) :
    ∃ calls, state.1.calls state.2 = some calls ∧ ∀ table columns (v : Valuation),
      (((Draft.ofTable table).withColumns columns).runAll calls).1.toSelect.condition.map
        (Expr.truth v.atom) = truth? state v := by
  obtain ⟨t, ht⟩ := h.store.exists_rel_stands h.root
  have hunfold := unfold_eq ht
  refine ⟨(state.1.withRoot t).calls, ?_, fun table columns v => ?_⟩
  · rw [calls_eq, hunfold, Option.map_some]
  · rw [Spec.condition_calls, truth?, Store.truth?_eq ht]
    show (t.bind Condition.expr?).map (Expr.truth v.atom) = _
    cases t with
    | none => rfl
    | some x => exact x.truth_expr? v

/-- A spec that conditions are added to is read from left to right, whatever the connectives. Each
addition puts the old root unchanged into the first place of the new one, which is one level deeper
than what it joins. -/
theorem compose_left_to_right {state : SharedSpec × Store} (h : Rooted state)
    {steps : List Joining} (hsteps : Composable state steps) :
    (∃ calls, (compose state steps).1.calls (compose state steps).2 = some calls ∧
      ∀ table columns (v : Valuation),
        (((Draft.ofTable table).withColumns columns).runAll calls).1.toSelect.condition.map
          (Expr.truth v.atom) =
        (steps.filterMap Joining.joined?).foldl
          (fun t (node, c) => Truth.beside c t ((compose state steps).2.truth? v node))
          (state.1.root.bind (state.2.truth? v))) ∧
    ∀ before node c after, steps = before ++ .join node c :: after →
      (compose state before).2.Keeps (compose state steps).2 ∧
      ∃ root, (joining (compose state before) (.join node c)).1.root = some root ∧
        Store.Joined (compose state before).2 (compose state before).1.root
          node c (joining (compose state before) (.join node c)).2 root := by
  constructor
  · obtain ⟨calls, hcalls, htruth⟩ := (h.run hsteps).truth_condition
    refine ⟨calls, hcalls, fun table columns v => ?_⟩
    rw [htruth, h.truth?_compose hsteps]
    rfl
  · intro before node c after heq
    subst heq
    obtain ⟨hbefore, hafter⟩ := composable_append.mp hsteps
    refine ⟨?_, (h.run hbefore).joined (hafter.1 node (List.mem_singleton.mpr rfl)) c⟩
    unfold compose
    rw [List.foldl_append]
    exact keeps_compose _ _

/-- Three leaves, the last one made on the way, and the first root once more. -/
def chain : List Joining :=
  [.join ⟨1⟩ .or, .make (.leaf (.unary .isNull "c")), .join ⟨3⟩ .and, .join ⟨2⟩ .or]

/-- A spec on the first of two leaves. -/
def first : SharedSpec × Store :=
  ({ root := some ⟨0⟩ }, ⟨#[.leaf (.unary .isNull "a"), .leaf (.unary .isNull "b")]⟩)

theorem rooted_first : Rooted first := by
  refine ⟨Store.sound_of_descends (by decide), fun h hh => ?_⟩
  cases hh
  decide

theorem composable_chain : Composable first chain :=
  ⟨by decide, by decide, by decide, by decide, trivial⟩

theorem compose_left_to_right_chain :
    Rooted first ∧ Composable first chain ∧
      (∃ calls, (compose first chain).1.calls (compose first chain).2 = some calls ∧
        ∀ table columns (v : Valuation),
          let a := v.atom (.isNull (.named "a") false)
          let b := v.atom (.isNull (.named "b") false)
          let c := v.atom (.isNull (.named "c") false)
          (((Draft.ofTable table).withColumns columns).runAll calls).1.toSelect.condition.map
            (Expr.truth v.atom) =
              some (Truth.join .or (Truth.join .and (Truth.join .or a b) c) (Truth.join .or a b))) ∧
      ∃ root, (joining (compose first (chain.take 2)) (.join ⟨3⟩ .and)).1.root = some root ∧
        Store.Joined (compose first (chain.take 2)).2 (some ⟨2⟩) ⟨3⟩ .and
          (joining (compose first (chain.take 2)) (.join ⟨3⟩ .and)).2 root := by
  obtain ⟨⟨calls, hcalls, htruth⟩, hjoined⟩ := compose_left_to_right rooted_first composable_chain
  refine ⟨rooted_first, composable_chain, ⟨calls, hcalls, fun table columns v => ?_⟩, ?_⟩
  · exact htruth table columns v
  · exact (hjoined (chain.take 2) ⟨3⟩ .and [.join ⟨2⟩ .or] rfl).2

end SharedSpec

end FilterQuery
