import FilterQuery.Proofs.Shared.Copies

/-!
# Specs over one store

Several specs have their roots in one store. Clients edit specs, copy them and change nodes, in any
order; each of these is one step of a workspace. A step that makes no cycle leaves a sound workspace
sound, and so does every run of such steps.
-/
namespace FilterQuery

/-- What clients do to a spec. -/
inductive Edit where
  | addSort (key : SortKey)
  | setSort (key : SortKey)
  | clearSort
  | setOffset (n : Option UInt64)
  | setLimit (n : Option UInt64)
  | addCondition (node : Handle) (c : Connective)

/-- The handles that are put into a node. -/
def Edit.handles : Edit → List Handle
  | addCondition node _ => [node]
  | _ => []

def SharedSpec.edit (spec : SharedSpec) (s : Store) : Edit → SharedSpec × Store
  | .addSort key => (Spec.addSort spec key, s)
  | .setSort key => (Spec.setSort spec key, s)
  | .clearSort => (Spec.clearSort spec, s)
  | .setOffset n => (Spec.setOffset spec n, s)
  | .setLimit n => (Spec.setLimit spec n, s)
  | .addCondition node c => SharedSpec.addCondition spec s node c

/-- A store and the specs on it. -/
structure Workspace where
  store : Store
  specs : List SharedSpec

/-- One step of the clients. Specs are numbered in the order in which they were made. -/
inductive Act where
  | edit (i : Nat) (edit : Edit)
  | change (change : Store.Change)
  | clone (i : Nat)
  | deepCopy (i : Nat)

namespace Act

/-- The handles that are put into a node. -/
def handles : Act → List Handle
  | edit _ e => e.handles
  | change c => c.handles
  | _ => []

/-- The step edits the spec of this number. -/
def isFor (m : Nat) : Act → Bool
  | edit i _ => i == m
  | _ => false

end Act

namespace Workspace

/-- The workspace after a step. Nothing is done to a spec that is not there. -/
def step (w : Workspace) : Act → Workspace
  | .edit i e =>
    match w.specs[i]? with
    | some spec => ⟨(spec.edit w.store e).2, w.specs.set i (spec.edit w.store e).1⟩
    | none => w
  | .change c => ⟨w.store.change c, w.specs⟩
  | .clone i =>
    match w.specs[i]? with
    | some spec => ⟨w.store, w.specs ++ [spec]⟩
    | none => w
  | .deepCopy i =>
    match w.specs[i]?.bind (·.deepCopy w.store) with
    | some (copied, s) => ⟨s, w.specs ++ [copied]⟩
    | none => w

def run (w : Workspace) (acts : List Act) : Workspace := acts.foldl step w

/-- All that a step can do. -/
theorem step_cases (w : Workspace) (act : Act) :
    (w.step act = w) ∨
    (∃ i e spec, act = .edit i e ∧ w.specs[i]? = some spec ∧
      w.step act = ⟨(spec.edit w.store e).2, w.specs.set i (spec.edit w.store e).1⟩) ∨
    (∃ c, act = .change c ∧ w.step act = ⟨w.store.change c, w.specs⟩) ∨
    (∃ i spec, act = .clone i ∧ w.specs[i]? = some spec ∧
      w.step act = ⟨w.store, w.specs ++ [spec]⟩) ∨
    (∃ i spec copied s, act = .deepCopy i ∧ w.specs[i]? = some spec ∧
      spec.deepCopy w.store = some (copied, s) ∧ w.step act = ⟨s, w.specs ++ [copied]⟩) := by
  cases act with
  | edit i e =>
    cases hspec : w.specs[i]? with
    | none => exact .inl (by simp only [step, hspec])
    | some spec => exact .inr (.inl ⟨i, e, spec, rfl, hspec, by simp only [step, hspec]⟩)
  | change c => exact .inr (.inr (.inl ⟨c, rfl, rfl⟩))
  | clone i =>
    cases hspec : w.specs[i]? with
    | none => exact .inl (by simp only [step, hspec])
    | some spec =>
      exact .inr (.inr (.inr (.inl ⟨i, spec, rfl, hspec, by simp only [step, hspec]⟩)))
  | deepCopy i =>
    cases hcopied : w.specs[i]?.bind (·.deepCopy w.store) with
    | none => exact .inl (by simp only [step, hcopied])
    | some result =>
      obtain ⟨spec, hspec, hcopy⟩ := Option.bind_eq_some_iff.mp hcopied
      exact .inr (.inr (.inr (.inr
        ⟨i, spec, result.1, result.2, rfl, hspec, hcopy, by simp only [step, hcopied]⟩)))

end Workspace

/-- An edit adds a group that holds the old root, or leaves nodes and root as they are. -/
theorem SharedSpec.edit_cases (spec : SharedSpec) (s : Store) (e : Edit) :
    ((spec.edit s e).2 = s ∧ (spec.edit s e).1.root = spec.root) ∨
    ∃ node c, e = .addCondition node c ∧
      (spec.edit s e).2 = (s.add (.group c (Spec.joined spec.root node))).2 ∧
      (spec.edit s e).1.root = some (s.add (.group c (Spec.joined spec.root node))).1 := by
  cases e with
  | addCondition node c => exact .inr ⟨node, c, rfl, rfl, rfl⟩
  | addSort key => exact .inl ⟨rfl, rfl⟩
  | setSort key => exact .inl ⟨rfl, rfl⟩
  | clearSort => exact .inl ⟨rfl, rfl⟩
  | setOffset n => exact .inl ⟨rfl, rfl⟩
  | setLimit n => exact .inl ⟨rfl, rfl⟩

theorem SharedSpec.keeps_edit (spec : SharedSpec) (s : Store) (e : Edit) :
    s.Keeps (spec.edit s e).2 := by
  rcases spec.edit_cases s e with ⟨hstore, _⟩ | ⟨node, c, _, hstore, _⟩
  · rw [hstore]
    exact .refl s
  · rw [hstore]
    exact s.keeps_add _

namespace Workspace

/-- The store is sound and has the roots of all specs. -/
structure Sound (w : Workspace) : Prop where
  store : w.store.Sound
  roots : ∀ spec ∈ w.specs, ∀ h ∈ spec.root, h ∈ w.store

/-- Clients only use handles of the store, and make no cycles. -/
def Admissible (w : Workspace) (act : Act) : Prop :=
  (∀ k ∈ act.handles, k ∈ w.store) ∧ (w.step act).store.Acyclic

/-- A run of admissible steps. -/
def Lawful (w : Workspace) : List Act → Prop
  | [] => True
  | act :: acts => w.Admissible act ∧ (w.step act).Lawful acts

theorem Lawful.take {w : Workspace} {acts : List Act} (h : w.Lawful acts) (n : Nat) :
    w.Lawful (acts.take n) := by
  induction acts generalizing w n with
  | nil =>
    rw [List.take_nil]
    exact h
  | cons act acts ih =>
    cases n with
    | zero => trivial
    | succ n => exact ⟨h.1, ih h.2 n⟩

theorem Sound.step_edit {w : Workspace} (hw : w.Sound) {i : Nat} {spec : SharedSpec}
    (hspec : w.specs[i]? = some spec) {e : Edit} (hknown : ∀ k ∈ e.handles, k ∈ w.store) :
    Sound ⟨(spec.edit w.store e).2, w.specs.set i (spec.edit w.store e).1⟩ := by
  have hroot := hw.roots spec (List.mem_of_getElem? hspec)
  have hkeeps := spec.keeps_edit w.store e
  have hnew : (spec.edit w.store e).2.Sound ∧
      ∀ h ∈ (spec.edit w.store e).1.root, h ∈ (spec.edit w.store e).2 := by
    rcases spec.edit_cases w.store e with ⟨hstore, hsame⟩ | ⟨node, c, rfl, hstore, hjoined⟩
    · rw [hstore, hsame]
      exact ⟨hw.store, hroot⟩
    · rw [hstore, hjoined]
      refine ⟨hw.store.add_joined hroot (hknown node (List.mem_singleton.mpr rfl)) c, ?_⟩
      intro h hh
      cases hh
      exact Store.mem_add_self _ _
  refine ⟨hnew.1, fun other hother h hh => ?_⟩
  rcases List.mem_or_eq_of_mem_set hother with hold | rfl
  · exact hkeeps.mem (hw.roots other hold h hh)
  · exact hnew.2 h hh

/-- A workspace with one spec more, on a store that has all nodes there were. -/
theorem Sound.append {w : Workspace} (hw : w.Sound) {s : Store} (hs : s.Sound)
    (hkeeps : w.store.Keeps s) {spec : SharedSpec} (hroot : ∀ h ∈ spec.root, h ∈ s) :
    Sound ⟨s, w.specs ++ [spec]⟩ := by
  refine ⟨hs, fun other hother h hh => ?_⟩
  rcases List.mem_append.mp hother with hold | hlast
  · exact hkeeps.mem (hw.roots other hold h hh)
  · cases List.mem_singleton.mp hlast
    exact hroot h hh

theorem Sound.step_deepCopy {w : Workspace} (hw : w.Sound) {spec copied : SharedSpec} {s : Store}
    (hspec : spec ∈ w.specs) (hcopied : spec.deepCopy w.store = some (copied, s)) :
    Sound ⟨s, w.specs ++ [copied]⟩ := by
  cases hroot : spec.root with
  | none =>
    rw [SharedSpec.deepCopy, hroot] at hcopied
    cases hcopied
    exact hw.append hw.store (.refl _) (hw.roots spec hspec)
  | some h =>
    obtain ⟨t, ht⟩ := hw.store.exists_stands (hw.roots spec hspec h hroot)
    rw [Store.deepCopy_eq hroot ht] at hcopied
    cases hcopied
    apply hw.append (hw.store.build t) (Store.keeps_build t w.store)
    intro k hk
    cases hk
    exact (Store.stands_build t w.store).mem

/-- An admissible step leaves a sound workspace sound. -/
theorem Sound.step {w : Workspace} (hw : w.Sound) {act : Act} (hact : w.Admissible act) :
    (w.step act).Sound := by
  rcases w.step_cases act with heq | ⟨i, e, spec, rfl, hspec, heq⟩ | ⟨c, rfl, heq⟩ |
    ⟨i, spec, rfl, hspec, heq⟩ | ⟨i, spec, copied, s, rfl, hspec, hcopied, heq⟩
  · rw [heq]
    exact hw
  · rw [heq]
    exact hw.step_edit hspec hact.1
  · have hacyclic := hact.2
    rw [heq] at hacyclic ⊢
    exact ⟨⟨hw.store.closed.change hact.1, hacyclic⟩,
      fun spec hspec h hh => Store.mem_change c (hw.roots spec hspec h hh)⟩
  · rw [heq]
    exact hw.append hw.store (.refl _) (hw.roots spec (List.mem_of_getElem? hspec))
  · rw [heq]
    exact hw.step_deepCopy (List.mem_of_getElem? hspec) hcopied

/-- Soundness is kept by a run of admissible steps. -/
theorem Sound.run {w : Workspace} (hw : w.Sound) {acts : List Act} (hacts : w.Lawful acts) :
    (w.run acts).Sound := by
  induction acts generalizing w with
  | nil => exact hw
  | cons act acts ih => exact ih (hw.step hacts.1) hacts.2

end Workspace

end FilterQuery
