import FilterQuery.Proofs.Shared.Workspace

/-!
# Clones

A clone of a spec has the root of the spec, and a page of its own. Main statement: however clients
go on from there without making cycles, each page depends on the edits of its own spec only, and a
change of a node is seen by the specs whose roots reach the node, and by no others.
-/
namespace FilterQuery

namespace SharedSpec

/-- Two specs that differ in their roots at most. -/
structure SamePage (a b : SharedSpec) : Prop where
  sorts_eq : a.sorts = b.sorts
  offset_eq : a.offset = b.offset
  limit_eq : a.limit = b.limit

/-- What an edit makes of a page depends on the page only. -/
theorem SamePage.edit {a b : SharedSpec} (h : a.SamePage b) (s s' : Store) (e : Edit) :
    (a.edit s e).1.SamePage (b.edit s' e).1 := by
  obtain ⟨hsorts, hoffset, hlimit⟩ := h
  cases e with
  | addSort key => exact ⟨congrArg (· ++ [key]) hsorts, hoffset, hlimit⟩
  | setSort key => exact ⟨rfl, hoffset, hlimit⟩
  | clearSort => exact ⟨rfl, hoffset, hlimit⟩
  | setOffset n => exact ⟨hsorts, rfl, hlimit⟩
  | setLimit n => exact ⟨hsorts, hoffset, rfl⟩
  | addCondition node c => exact ⟨hsorts, hoffset, hlimit⟩

/-- What an edit makes of a spec. Only a joining needs a node, which is a fresh one above the old
root and the new node. -/
inductive Edited (s s' : Store) (spec : SharedSpec) : Edit → SharedSpec → Prop where
  | addSort (key : SortKey) :
      Edited s s' spec (.addSort key) ⟨spec.root, spec.sorts ++ [key], spec.offset, spec.limit⟩
  | setSort (key : SortKey) :
      Edited s s' spec (.setSort key) ⟨spec.root, [key], spec.offset, spec.limit⟩
  | clearSort : Edited s s' spec .clearSort ⟨spec.root, [], spec.offset, spec.limit⟩
  | setOffset (n : Option UInt64) :
      Edited s s' spec (.setOffset n) ⟨spec.root, spec.sorts, n, spec.limit⟩
  | setLimit (n : Option UInt64) :
      Edited s s' spec (.setLimit n) ⟨spec.root, spec.sorts, spec.offset, n⟩
  | addCondition {h : Handle} (node : Handle) (c : Connective) (fresh : h ∉ s)
      (joins : s'.get? h = some (.group c (spec.root.toList ++ [node]))) :
      Edited s s' spec (.addCondition node c) ⟨some h, spec.sorts, spec.offset, spec.limit⟩

theorem edited_edit (spec : SharedSpec) (s : Store) (e : Edit) :
    spec.Edited s (spec.edit s e).2 e (spec.edit s e).1 := by
  cases e with
  | addSort key => exact .addSort key
  | setSort key => exact .setSort key
  | clearSort => exact .clearSort
  | setOffset n => exact .setOffset n
  | setLimit n => exact .setLimit n
  | addCondition node c =>
    have hfresh := s.fresh_add (.group c (Spec.joined spec.root node))
    exact .addCondition node c hfresh (s.get?_add_self _)

end SharedSpec

namespace Workspace

theorem get?_step_edit {w : Workspace} {m : Nat} {spec : SharedSpec}
    (hspec : w.specs[m]? = some spec) (e : Edit) :
    (w.step (.edit m e)).specs[m]? = some (spec.edit w.store e).1 := by
  have hlt : m < w.specs.length := (List.getElem?_eq_some_iff.mp hspec).1
  simp only [step, hspec]
  rw [List.getElem?_set_self hlt]

theorem store_step_edit {w : Workspace} {m : Nat} {spec : SharedSpec}
    (hspec : w.specs[m]? = some spec) (e : Edit) :
    (w.step (.edit m e)).store = (spec.edit w.store e).2 := by
  simp only [step, hspec]

/-- An edit of one spec leaves the other ones. -/
theorem get?_step_edit_ne (w : Workspace) {m i : Nat} (hne : m ≠ i) (e : Edit) :
    (w.step (.edit i e)).specs[m]? = w.specs[m]? := by
  cases hspec : w.specs[i]? with
  | none => simp only [step, hspec]
  | some spec =>
    simp only [step, hspec]
    rw [List.getElem?_set_ne hne.symm]

theorem keeps_step_edit (w : Workspace) (i : Nat) (e : Edit) :
    w.store.Keeps (w.step (.edit i e)).store := by
  cases hspec : w.specs[i]? with
  | none =>
    simp only [step, hspec]
    exact .refl _
  | some spec =>
    rw [store_step_edit hspec]
    exact spec.keeps_edit w.store e

/-- A step that is no edit of a spec leaves it. -/
theorem get?_step_of_not_isFor {w : Workspace} {m : Nat} {spec : SharedSpec}
    (hspec : w.specs[m]? = some spec) {act : Act} (hfor : ¬ act.isFor m = true) :
    (w.step act).specs[m]? = some spec := by
  have hlt : m < w.specs.length := (List.getElem?_eq_some_iff.mp hspec).1
  rcases w.step_cases act with heq | ⟨i, e, _, rfl, _, _⟩ | ⟨c, _, heq⟩ | ⟨i, _, _, _, heq⟩ |
    ⟨i, _, _, _, _, _, _, heq⟩
  · rw [heq, hspec]
  · have hne : m ≠ i := fun h => hfor (beq_iff_eq.mpr h.symm)
    rw [w.get?_step_edit_ne hne, hspec]
  · rw [heq, hspec]
  · rw [heq, List.getElem?_append_left hlt, hspec]
  · rw [heq, List.getElem?_append_left hlt, hspec]

/-- In any run the page of a spec is that of a run of its own edits. -/
theorem samePage_run {w v : Workspace} {m : Nat} {a b : SharedSpec} (ha : w.specs[m]? = some a)
    (hb : v.specs[m]? = some b) (hab : a.SamePage b) (acts : List Act) :
    ∃ own alone, (w.run acts).specs[m]? = some own ∧
      (v.run (acts.filter (·.isFor m))).specs[m]? = some alone ∧ own.SamePage alone := by
  induction acts generalizing w v a b with
  | nil => exact ⟨a, b, ha, hb, hab⟩
  | cons act acts ih =>
    by_cases hfor : act.isFor m = true
    · rw [List.filter_cons_of_pos hfor]
      cases act with
      | edit i e =>
        cases beq_iff_eq.mp hfor
        exact ih (get?_step_edit ha e) (get?_step_edit hb e) (hab.edit w.store v.store e)
      | change c => cases hfor
      | clone i => cases hfor
      | deepCopy i => cases hfor
    · rw [List.filter_cons_of_neg hfor]
      exact ih (get?_step_of_not_isFor ha hfor) hb hab

/-- What holds at one moment: each spec is compiled as the tree is that its root stands for. An edit
does what it says to its own spec, and leaves the other specs and all nodes that were there. A
change behind a handle is not seen by a spec whose root does not reach the handle. A spec whose root
does reach it is a context around the tree of that handle, and what the change makes of this tree is
in the same context then. -/
structure Aliasing (w : Workspace) : Prop where
  compiled : ∀ spec ∈ w.specs, ∃ t, spec.unfold w.store = some t ∧
    ∀ dialect table columns, spec.select dialect table columns w.store =
      some (Selection.make dialect table columns (some t))
  edited : ∀ i e, w.store.Keeps (w.step (.edit i e)).store ∧
    (∀ m, m ≠ i → (w.step (.edit i e)).specs[m]? = w.specs[m]?) ∧
    ∀ spec, w.specs[i]? = some spec → ∃ spec', (w.step (.edit i e)).specs[i]? = some spec' ∧
      spec.Edited w.store (w.step (.edit i e)).store e spec'
  created : ∀ n, w.store.Keeps (w.step (.change (.create n))).store ∧
    ∃ h, h ∉ w.store ∧ (w.step (.change (.create n))).store.get? h = some n
  unseen : ∀ change h, change.target? = some h → ∀ spec ∈ w.specs,
    (∀ root ∈ spec.root, ¬ w.store.Reaches root h) →
      spec.unfold (w.step (.change change)).store = spec.unfold w.store ∧
      ∀ dialect table columns, spec.select dialect table columns (w.step (.change change)).store =
        spec.select dialect table columns w.store
  seen : ∀ spec ∈ w.specs, ∀ root ∈ spec.root, ∀ h, w.store.Reaches root h →
    ∃ (context : Condition.Context) (old : Condition),
      (∀ t u, context.fill t = context.fill u → t = u) ∧ w.store.unfold h = some old ∧
      spec.unfold w.store = some (spec.withRoot (some (context.fill old))) ∧
      ∀ change, change.target? = some h → w.Admissible (.change change) →
        ∃ new, w.store.Becomes change old new ∧
          (w.step (.change change)).store.unfold h = some new ∧
          spec.unfold (w.step (.change change)).store =
            some (spec.withRoot (some (context.fill new))) ∧
          ∀ dialect table columns,
            spec.select dialect table columns (w.step (.change change)).store =
              some (Selection.make dialect table columns
                (some (spec.withRoot (some (context.fill new)))))

theorem Sound.exists_unfold {w : Workspace} (hw : w.Sound) {spec : SharedSpec}
    (hspec : spec ∈ w.specs) : ∃ t, spec.unfold w.store = some t := by
  obtain ⟨t, ht⟩ := hw.store.exists_rel_stands (hw.roots spec hspec)
  exact ⟨spec.withRoot t, SharedSpec.unfold_eq ht⟩

/-- What a root does not reach can change without being seen from there. -/
theorem Sound.unfold_change {w : Workspace} (hw : w.Sound) {change : Store.Change} {h : Handle}
    (htarget : change.target? = some h) {spec : SharedSpec} (hspec : spec ∈ w.specs)
    (hapart : ∀ root ∈ spec.root, ¬ w.store.Reaches root h) :
    spec.unfold (w.store.change change) = spec.unfold w.store := by
  obtain ⟨t, ht⟩ := hw.store.exists_rel_stands (hw.roots spec hspec)
  have hchanged : Option.Rel (Store.Stands (w.store.change change)) spec.root t := by
    apply Store.rel_stands_of_forall ht
    intro root hroot u hu
    apply hu.transport
    intro k n hk hn
    have hne : k ≠ h := by
      rintro rfl
      exact hapart root hroot hk
    exact Store.get?_change_of_ne htarget hne hn
  rw [SharedSpec.unfold_eq ht, SharedSpec.unfold_eq hchanged]

theorem Sound.aliasing {w : Workspace} (hw : w.Sound) : w.Aliasing := by
  constructor
  case compiled =>
    intro spec hspec
    obtain ⟨t, ht⟩ := hw.exists_unfold hspec
    exact ⟨t, ht, SharedSpec.select_of_unfold ht⟩
  case edited =>
    intro i e
    refine ⟨w.keeps_step_edit i e, fun m hne => w.get?_step_edit_ne hne e, fun spec hspec => ?_⟩
    refine ⟨_, get?_step_edit hspec e, ?_⟩
    rw [store_step_edit hspec]
    exact spec.edited_edit w.store e
  case created =>
    intro n
    exact ⟨w.store.keeps_add n, _, w.store.fresh_add n, w.store.get?_add_self n⟩
  case unseen =>
    intro change h htarget spec hspec hapart
    have hsame := hw.unfold_change htarget hspec hapart
    refine ⟨hsame, fun dialect table columns => ?_⟩
    show spec.select dialect table columns (w.store.change change) = _
    rw [SharedSpec.select_eq, hsame, ← SharedSpec.select_eq]
  case seen =>
    intro spec hspec root hroot h hreaches
    have hmem := hw.roots spec hspec root hroot
    have hknown := hreaches.mem hw.store.closed hmem
    obtain ⟨t, ht⟩ := hw.store.exists_stands hmem
    obtain ⟨old, hold⟩ := hw.store.exists_stands hknown
    obtain ⟨context, hopen, hfill⟩ := ht.exists_context h
    have hunfold : ∀ s u, Store.Stands s root (context.fill u) →
        spec.unfold s = some (spec.withRoot (some (context.fill u))) :=
      fun s u hu => SharedSpec.unfold_eq (Option.mem_def.mp hroot ▸ .some hu)
    refine ⟨context, old, fun t u => Condition.Context.fill_inj (hopen.mpr hreaches),
      hold.unfold_eq, hunfold _ old (hfill _ old (fun _ _ _ hn => hn) hold), ?_⟩
    intro change htarget hadmissible
    obtain ⟨new, hbecomes, hnew⟩ :=
      hw.store.exists_becomes htarget hold hadmissible.1 hadmissible.2
    have hrest : ∀ k n, k ≠ h → w.store.get? k = some n →
        (w.store.change change).get? k = some n :=
      fun k n hne hn => Store.get?_change_of_ne htarget hne hn
    have hseen := hunfold _ new (hfill _ new hrest hnew)
    exact ⟨new, hbecomes, hnew.unfold_eq, hseen, SharedSpec.select_of_unfold hseen⟩

theorem step_clone {w : Workspace} {i : Nat} {spec : SharedSpec} (hspec : w.specs[i]? = some spec) :
    w.step (.clone i) = ⟨w.store, w.specs ++ [spec]⟩ := by
  simp only [step, hspec]

theorem Sound.step_clone {w : Workspace} (hw : w.Sound) (i : Nat) : (w.step (.clone i)).Sound := by
  apply hw.step
  refine ⟨fun k hk => (nomatch hk), ?_⟩
  cases hspec : w.specs[i]? with
  | none =>
    simp only [Workspace.step, hspec]
    exact hw.store.acyclic
  | some spec =>
    rw [Workspace.step_clone hspec]
    exact hw.store.acyclic

/-- A clone shares the nodes below its root with the spec that it was made of, and nothing else.
This holds at every moment of a run that makes no cycles. -/
theorem clone_shares_nodes_only {w : Workspace} (hw : w.Sound) {i : Nat} {spec : SharedSpec}
    (hspec : w.specs[i]? = some spec) {acts : List Act}
    (hacts : (w.step (.clone i)).Lawful acts) :
    w.step (.clone i) = ⟨w.store, w.specs ++ [spec]⟩ ∧
    ∀ n, ((w.step (.clone i)).run (acts.take n)).Aliasing ∧
      ∀ m ≤ w.specs.length, ∃ own alone,
        ((w.step (.clone i)).run (acts.take n)).specs[m]? = some own ∧
        ((w.step (.clone i)).run ((acts.take n).filter (·.isFor m))).specs[m]? = some alone ∧
        own.SamePage alone := by
  have hclone := Workspace.step_clone hspec
  refine ⟨hclone, fun n => ⟨((hw.step_clone i).run (hacts.take n)).aliasing, fun m hm => ?_⟩⟩
  have hlt : m < (w.step (.clone i)).specs.length := by
    rw [hclone]
    simp only [List.length_append, List.length_singleton]
    omega
  have hstart := List.getElem?_eq_getElem hlt
  exact samePage_run hstart hstart ⟨rfl, rfl, rfl⟩ (acts.take n)

/-- A spec whose root is a group, and a leaf beside it. -/
def paired : Workspace where
  store := ⟨#[.leaf (.unary .isNull "a"), .leaf (.unary .isNull "b"), .group .and [⟨0⟩]]⟩
  specs := [{ root := some ⟨2⟩ }]

/-- Edits of the spec and of its clone between changes of what they share. -/
def alternation : List Act :=
  [.edit 0 (.addSort ⟨"a", .ascending⟩), .change (.push ⟨2⟩ ⟨1⟩), .edit 1 (.addCondition ⟨1⟩ .or),
    .edit 1 (.setLimit (some 5)), .change (.replace ⟨0⟩ (.leaf (.unary .isNotNull "a")))]

/-- The queries of all specs on the table `t`. -/
def queries (w : Workspace) : List (Option String) :=
  w.specs.map fun spec => (spec.select .postgres "t" [] w.store).map (·.sql)

theorem sound_paired : paired.Sound := by
  refine ⟨Store.sound_of_descends (by decide), fun spec hspec h hh => ?_⟩
  cases List.mem_singleton.mp hspec
  cases hh
  decide

theorem lawful_alternation : (paired.step (.clone 0)).Lawful alternation := by
  refine ⟨⟨by decide, ?_⟩, ⟨by decide, ?_⟩, ⟨by decide, ?_⟩, ⟨by decide, ?_⟩, ⟨by decide, ?_⟩,
    trivial⟩
  all_goals exact (Store.sound_of_descends (by decide)).acyclic

/-- Both queries show the node that was pushed, and the one that was put there later. After all
steps the clone has a limit and a new root, and the spec has a sort. -/
theorem clone_shares_nodes_only_alternation :
    paired.Sound ∧ paired.specs[0]? = some { root := some ⟨2⟩ } ∧
      (paired.step (.clone 0)).Lawful alternation ∧ 1 ≤ paired.specs.length ∧
      ((paired.step (.clone 0)).run alternation).Aliasing ∧
      ((paired.step (.clone 0)).run (alternation.take 2)).queries =
        [some "SELECT * FROM \"t\" WHERE ((\"a\" IS NULL) AND (\"b\" IS NULL)) ORDER BY \"a\" ASC",
          some "SELECT * FROM \"t\" WHERE ((\"a\" IS NULL) AND (\"b\" IS NULL))"] ∧
      ((paired.step (.clone 0)).run alternation).queries =
        [some ("SELECT * FROM \"t\" WHERE ((\"a\" IS NOT NULL) AND (\"b\" IS NULL))" ++
            " ORDER BY \"a\" ASC"),
          some ("SELECT * FROM \"t\" WHERE (((\"a\" IS NOT NULL) AND (\"b\" IS NULL))" ++
            " OR (\"b\" IS NULL)) LIMIT $1")] ∧
      ∃ own alone, ((paired.step (.clone 0)).run alternation).specs[1]? = some own ∧
        ((paired.step (.clone 0)).run (alternation.filter (·.isFor 1))).specs[1]? = some alone ∧
        own.SamePage alone ∧ own.root = some ⟨3⟩ ∧ own.limit = some 5 ∧ own.sorts = [] := by
  obtain ⟨_, hmoments⟩ := clone_shares_nodes_only sound_paired (i := 0) rfl lawful_alternation
  obtain ⟨haliasing, hpages⟩ := hmoments 5
  obtain ⟨own, alone, hown, halone, hsame⟩ := hpages 1 (by decide)
  refine ⟨sound_paired, rfl, lawful_alternation, by decide, haliasing, by decide +kernel,
    by decide +kernel, own, alone, hown, halone, hsame, ?_⟩
  have hclone : ((paired.step (.clone 0)).run alternation).specs[1]? =
      some ⟨some ⟨3⟩, [], none, some 5⟩ := rfl
  rw [show alternation.take 5 = alternation from rfl, hclone] at hown
  cases hown
  exact ⟨rfl, rfl, rfl⟩

end Workspace

end FilterQuery
