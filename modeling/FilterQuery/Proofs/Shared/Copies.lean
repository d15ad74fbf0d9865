import FilterQuery.Proofs.Shared.Frames
import FilterQuery.Proofs.Shared.Walks

/-!
# Copies

Copying a handle builds the tree that it stands for, behind handles of its own. They lie in the
store in the order in which the tree is gone through, children before their group, so each of them
is at the end of one path, however many paths led to the node that was copied. Main statement: a
copy is a full one, and a change on one side is not seen on the other.
-/
namespace FilterQuery

namespace Store

/-- The handle at the end of a path; a path says at each node to which of its children to go. -/
def follow (s : Store) : Handle → List Nat → Option Handle
  | h, [] => some h
  | h, i :: path => do
    let n ← s.get? h
    let k ← n.children[i]?
    s.follow k path

theorem follow_cons {s : Store} {h : Handle} {n : Node} (hn : s.get? h = some n) (i : Nat)
    (path : List Nat) : s.follow h (i :: path) = n.children[i]?.bind (s.follow · path) := by
  rw [follow, hn]
  rfl

/-- One reaches what some path ends at. -/
theorem reaches_iff_follow {s : Store} {h k : Handle} :
    s.Reaches h k ↔ ∃ path, s.follow h path = some k := by
  constructor
  · intro hk
    induction hk using Relation.ReflTransGen.head_induction_on with
    | refl => exact ⟨[], rfl⟩
    | head hchild _ ih =>
      obtain ⟨n, hn, hj⟩ := hchild
      obtain ⟨i, hi⟩ := List.mem_iff_getElem?.mp hj
      obtain ⟨path, hpath⟩ := ih
      refine ⟨i :: path, ?_⟩
      rw [follow_cons hn, hi, Option.bind_some, hpath]
  · intro ⟨path, hpath⟩
    induction path generalizing h with
    | nil =>
      cases hpath
      exact .refl
    | cons i path ih =>
      obtain ⟨n, hn, hrest⟩ := Option.bind_eq_some_iff.mp hpath
      obtain ⟨j, hj, hjk⟩ := Option.bind_eq_some_iff.mp hrest
      exact .head ⟨n, hn, List.mem_of_getElem? hj⟩ (ih hjk)

mutual

/-- The tree lies behind the handles from `lo` on, its root behind the last of them. -/
inductive Laid (s : Store) : Nat → Handle → Condition → Prop where
  | leaf {lo : Nat} {p : Predicate} (node : s.get? ⟨lo⟩ = some (.leaf p)) :
      Laid s lo ⟨lo⟩ (.leaf p)
  | group {lo top : Nat} {c : Connective} {hs : List Handle} {ts : List Condition}
      (children : AllLaid s lo top hs ts) (node : s.get? ⟨top⟩ = some (.group c hs)) :
      Laid s lo ⟨top⟩ (.group c ts)

/-- The trees lie behind the handles from `lo` up to `hi`, one after the other. -/
inductive AllLaid (s : Store) : Nat → Nat → List Handle → List Condition → Prop where
  | nil {lo : Nat} : AllLaid s lo lo [] []
  | cons {lo hi : Nat} {h : Handle} {hs : List Handle} {t : Condition} {ts : List Condition}
      (head : Laid s lo h t) (tail : AllLaid s (h.index + 1) hi hs ts) :
      AllLaid s lo hi (h :: hs) (t :: ts)

end

mutual

theorem Laid.stands {s : Store} {lo : Nat} {h : Handle} {t : Condition} (ht : Laid s lo h t) :
    Stands s h t := by
  cases ht with
  | leaf node => exact .leaf node
  | group children node => exact .group node (AllLaid.allStand children)

theorem AllLaid.allStand {s : Store} {lo hi : Nat} {hs : List Handle} {ts : List Condition}
    (hts : AllLaid s lo hi hs ts) : AllStand s hs ts := by
  cases hts with
  | nil => exact .nil
  | cons head tail => exact .cons (Laid.stands head) (AllLaid.allStand tail)

end

mutual

theorem Laid.le {s : Store} {lo : Nat} {h : Handle} {t : Condition} (ht : Laid s lo h t) :
    lo ≤ h.index := by
  cases ht with
  | leaf node => exact Nat.le_refl _
  | group children node => exact AllLaid.le children

theorem AllLaid.le {s : Store} {lo hi : Nat} {hs : List Handle} {ts : List Condition}
    (hts : AllLaid s lo hi hs ts) : lo ≤ hi := by
  cases hts with
  | nil => exact Nat.le_refl _
  | cons head tail =>
    have hhead := Laid.le head
    have htail := AllLaid.le tail
    omega

end

mutual

/-- Paths through a tree end where it lies. -/
theorem Laid.index_of_follow {s : Store} {lo : Nat} {h k : Handle} {t : Condition}
    (ht : Laid s lo h t) {path : List Nat} (hk : s.follow h path = some k) :
    lo ≤ k.index ∧ k.index ≤ h.index := by
  cases path with
  | nil =>
    cases hk
    exact ⟨ht.le, Nat.le_refl _⟩
  | cons i path =>
    cases ht with
    | leaf node =>
      rw [follow_cons node] at hk
      cases hk
    | @group _ top c hs ts children node =>
      rw [follow_cons node] at hk
      obtain ⟨hlo, hhi⟩ := AllLaid.index_of_follow children hk
      exact ⟨hlo, Nat.le_of_lt hhi⟩

theorem AllLaid.index_of_follow {s : Store} {lo hi : Nat} {hs : List Handle}
    {ts : List Condition} (hts : AllLaid s lo hi hs ts) {i : Nat} {path : List Nat} {k : Handle}
    (hk : hs[i]?.bind (s.follow · path) = some k) : lo ≤ k.index ∧ k.index < hi := by
  cases hts with
  | nil => cases hk
  | @cons _ _ h hs t ts head tail =>
    have hhead := head.le
    have htail := tail.le
    cases i with
    | zero =>
      have hbounds := Laid.index_of_follow head hk
      omega
    | succ i =>
      have hbounds := AllLaid.index_of_follow tail hk
      omega

end

mutual

/-- Exactly one path leads to each handle behind which a tree lies. -/
theorem Laid.existsUnique_path {s : Store} {lo : Nat} {h k : Handle} {t : Condition}
    (ht : Laid s lo h t) (hlo : lo ≤ k.index) (hhi : k.index ≤ h.index) :
    ∃! path, s.follow h path = some k := by
  cases ht with
  | leaf node =>
    have hk : k = ⟨lo⟩ := congrArg Handle.mk (Nat.le_antisymm hhi hlo)
    subst hk
    refine ⟨[], rfl, fun path hpath => ?_⟩
    cases path with
    | nil => rfl
    | cons i path =>
      rw [follow_cons node] at hpath
      cases hpath
  | @group _ top c hs ts children node =>
    by_cases htop : k.index < top
    · -- Only a path through a child ends there, as the root is elsewhere.
      obtain ⟨⟨i, path⟩, hpath, honly⟩ := AllLaid.existsUnique_path children hlo htop
      refine ⟨i :: path, (follow_cons node i path).trans hpath, fun other hother => ?_⟩
      cases other with
      | nil =>
        cases hother
        exact absurd htop (Nat.lt_irrefl _)
      | cons j other =>
        rw [follow_cons node] at hother
        cases honly (j, other) hother
        rfl
    · have hk : k = ⟨top⟩ := congrArg Handle.mk (Nat.le_antisymm hhi (Nat.le_of_not_lt htop))
      subst hk
      refine ⟨[], rfl, fun path hpath => ?_⟩
      cases path with
      | nil => rfl
      | cons i path =>
        rw [follow_cons node] at hpath
        have hbounds := children.index_of_follow hpath
        exact absurd hbounds.2 (Nat.lt_irrefl _)

theorem AllLaid.existsUnique_path {s : Store} {lo hi : Nat} {hs : List Handle} {k : Handle}
    {ts : List Condition} (hts : AllLaid s lo hi hs ts) (hlo : lo ≤ k.index) (hhi : k.index < hi) :
    ∃! step : Nat × List Nat, hs[step.1]?.bind (s.follow · step.2) = some k := by
  cases hts with
  | nil => omega
  | @cons _ _ h hs t ts head tail =>
    by_cases hhead : k.index ≤ h.index
    · obtain ⟨path, hpath, honly⟩ := Laid.existsUnique_path head hlo hhead
      refine ⟨(0, path), hpath, ?_⟩
      intro ⟨i, other⟩ hother
      cases i with
      | zero => rw [honly other hother]
      | succ i =>
        have hbounds := tail.index_of_follow hother
        omega
    · obtain ⟨⟨i, path⟩, hpath, honly⟩ :=
        AllLaid.existsUnique_path tail (Nat.lt_of_not_le hhead) hhi
      refine ⟨(i + 1, path), hpath, ?_⟩
      intro ⟨j, other⟩ hother
      cases j with
      | zero =>
        have hbounds := head.index_of_follow hother
        omega
      | succ j =>
        cases honly (j, other) hother
        rfl

end

theorem buildAll_cons (t : Condition) (ts : List Condition) (s : Store) :
    buildAll (t :: ts) s =
      ((build t s).1 :: (buildAll ts (build t s).2).1, (buildAll ts (build t s).2).2) := rfl

mutual

theorem keeps_build (t : Condition) (s : Store) : s.Keeps (build t s).2 := by
  cases t with
  | leaf p => exact s.keeps_add (.leaf p)
  | group c ts => exact (keeps_buildAll ts s).trans (keeps_add _ _)

theorem keeps_buildAll (ts : List Condition) (s : Store) : s.Keeps (buildAll ts s).2 := by
  cases ts with
  | nil => exact .refl s
  | cons t ts => exact (keeps_build t s).trans (keeps_buildAll ts _)

end

/-- The root is built last. -/
theorem size_build (t : Condition) (s : Store) :
    (build t s).2.size = (build t s).1.index + 1 := by
  cases t with
  | leaf p => exact size_add s _
  | group c ts => exact size_add _ _

mutual

theorem laid_build (t : Condition) {s s' : Store} (h : (build t s).2.Keeps s') :
    Laid s' s.size (build t s).1 t := by
  cases t with
  | leaf p => exact .leaf (h _ _ (get?_add_self s (.leaf p)))
  | group c ts =>
    have hchildren : (buildAll ts s).2.Keeps s' := (keeps_add _ _).trans h
    exact .group (laid_buildAll ts hchildren) (h _ _ (get?_add_self _ _))

theorem laid_buildAll (ts : List Condition) {s s' : Store} (h : (buildAll ts s).2.Keeps s') :
    AllLaid s' s.size (buildAll ts s).2.size (buildAll ts s).1 ts := by
  cases ts with
  | nil => exact .nil
  | cons t ts =>
    have htail := laid_buildAll ts (s := (build t s).2) h
    rw [size_build] at htail
    exact .cons (laid_build t ((keeps_buildAll ts _).trans h)) htail

end

theorem stands_build (t : Condition) (s : Store) : Stands (build t s).2 (build t s).1 t :=
  (laid_build t (.refl _)).stands

theorem AllStand.mem {s : Store} {hs : List Handle} {ts : List Condition}
    (hts : AllStand s hs ts) {k : Handle} (hk : k ∈ hs) : k ∈ s := by
  induction hs generalizing ts with
  | nil => cases hk
  | cons h hs ih =>
    cases hts with
    | cons head tail =>
      rcases List.mem_cons.mp hk with rfl | hrest
      · exact head.mem
      · exact ih tail hrest

mutual

theorem Sound.build {s : Store} (hs : s.Sound) (t : Condition) : (build t s).2.Sound := by
  cases t with
  | leaf p => exact hs.add fun k hk => nomatch hk
  | group c ts =>
    have hchildren := (laid_buildAll ts (s := s) (.refl _)).allStand
    exact (Sound.buildAll hs ts).add fun k hk => hchildren.mem hk

theorem Sound.buildAll {s : Store} (hs : s.Sound) (ts : List Condition) :
    (buildAll ts s).2.Sound := by
  cases ts with
  | nil => exact hs
  | cons t ts => exact Sound.buildAll (Sound.build hs t) ts

end

mutual

/-- Copying goes on building while it reads: what it adds leaves what it has still to read. -/
theorem copyWithin_eq (t : Condition) {s : Store} {h : Handle} (ht : Stands s h t) {levels : Nat}
    (hlevels : t.depth ≤ levels) : copyWithin levels h s = some (build t s) := by
  cases levels with
  | zero => cases t <;> simp [Condition.depth] at hlevels
  | succ levels =>
    cases t with
    | leaf p =>
      cases ht with
      | leaf node =>
        simp only [copyWithin, node]
        rfl
    | group c ts =>
      cases ht with
      | group node children =>
        have hts : Condition.depths ts ≤ levels := by
          simp only [Condition.depth] at hlevels
          omega
        simp only [copyWithin, node, forEach_copyWithin_eq ts children hts]
        rfl

theorem forEach_copyWithin_eq (ts : List Condition) {s : Store} {hs : List Handle}
    (hts : AllStand s hs ts) {levels : Nat} (hlevels : Condition.depths ts ≤ levels) :
    forEach (copyWithin levels) hs s = some (buildAll ts s) := by
  cases ts with
  | nil =>
    cases hts
    rfl
  | cons t ts =>
    cases hts with
    | @cons h hs _ _ head tail =>
      simp only [Condition.depths] at hlevels
      have hhead : copyWithin levels h s = some (build t s) := copyWithin_eq t head (by omega)
      have hrest := (keeps_build t s).allStand tail
      have htail : forEach (copyWithin levels) hs (build t s).2 = some (buildAll ts (build t s).2) :=
        forEach_copyWithin_eq ts hrest (by omega)
      simp only [forEach, hhead, Option.bind_eq_bind, Option.bind_some, htail]
      rfl

end

/-- Copying a handle builds the tree that it stands for. -/
theorem copy_eq {s : Store} {h : Handle} {t : Condition} (ht : Stands s h t) :
    s.copy h = some (build t s) := copyWithin_eq t ht ht.depth_le_size

theorem deepCopy_eq {s : Store} {spec : SharedSpec} {h : Handle} {t : Condition}
    (hroot : spec.root = some h) (ht : Stands s h t) :
    spec.deepCopy s = some (spec.withRoot (some (build t s).1), (build t s).2) := by
  rw [SharedSpec.deepCopy, hroot]
  simp only [copy_eq ht, Option.map_some]

/-- In `s'` the handle `copy` is a copy of what `h` stands for in `s`. Changes of the one side are
those behind handles that `copy` reaches when it is made, or behind later ones; changes of the other
side are those behind all other handles. -/
structure IsCopy (s : Store) (h : Handle) (s' : Store) (copy : Handle) : Prop where
  sound : s'.Sound
  same : ∃ t, s.ReadsAs h t ∧ s'.ReadsAs copy t
  kept : ∀ k ∈ s, ∃ t, s.ReadsAs k t ∧ s'.ReadsAs k t
  own : ∀ k, s'.Reaches copy k → k ∉ s ∧ ∃! path, s'.follow copy path = some k
  unseen : ∀ changes, Confined (fun k => s'.Reaches copy k ∨ k ∉ s') changes →
    ∀ k ∈ s, ∃ t, s.ReadsAs k t ∧ (s'.after changes).ReadsAs k t
  unseeing : ∀ changes, Confined (fun k => ¬ s'.Reaches copy k) changes →
    ∀ k, s'.Reaches copy k → ∃ t, s'.ReadsAs k t ∧ (s'.after changes).ReadsAs k t

theorem Keeps.readsAs {s s' : Store} (h : s.Keeps s') (hs : s.Sound) {k : Handle} (hk : k ∈ s) :
    ∃ t, s.ReadsAs k t ∧ s'.ReadsAs k t := by
  obtain ⟨t, ht⟩ := hs.exists_stands hk
  exact ⟨t, ht.readsAs, (h.stands ht).readsAs⟩

theorem isCopy_build {s : Store} (hs : s.Sound) {h : Handle} {t : Condition}
    (ht : Stands s h t) : s.IsCopy h (build t s).2 (build t s).1 := by
  have hsound := hs.build t
  have hkeeps := keeps_build t s
  have hlaid := laid_build t (s := s) (.refl _)
  have hown : ∀ k, (build t s).2.Reaches (build t s).1 k →
      k ∉ s ∧ ∃! path, (build t s).2.follow (build t s).1 path = some k := by
    intro k hk
    obtain ⟨path, hpath⟩ := reaches_iff_follow.mp hk
    obtain ⟨hlo, hhi⟩ := hlaid.index_of_follow hpath
    exact ⟨Nat.not_lt_of_le hlo, hlaid.existsUnique_path hlo hhi⟩
  refine ⟨hsound, ⟨t, ht.readsAs, hlaid.stands.readsAs⟩, fun k hk => hkeeps.readsAs hs hk, hown,
    ?_, ?_⟩
  · intro changes hchanges k hk
    obtain ⟨u, hu⟩ := hs.exists_stands hk
    refine ⟨u, hu.readsAs, ((hkeeps.stands hu).after ?_).readsAs⟩
    intro change hchange j htarget hj
    have hold := hkeeps.mem_of_reaches hs.closed hk hj
    rcases hchanges change hchange j htarget with hcopy | hlater
    · exact (hown j hcopy).1 hold
    · exact hlater (hkeeps.mem hold)
  · intro changes hchanges k hk
    obtain ⟨u, hu⟩ := hsound.exists_stands (hk.mem hsound.closed hlaid.stands.mem)
    refine ⟨u, hu.readsAs, (hu.after ?_).readsAs⟩
    intro change hchange j htarget hj
    exact hchanges change hchange j htarget (hk.trans hj)

end Store

/-- In `s'` the spec `copied` is a copy of what `spec` stands for in `s`. -/
structure SharedSpec.IsCopy (s : Store) (spec : SharedSpec) (s' : Store) (copied : SharedSpec) :
    Prop where
  sorts_eq : copied.sorts = spec.sorts
  offset_eq : copied.offset = spec.offset
  limit_eq : copied.limit = spec.limit
  root : Option.Rel (fun h copy => s.IsCopy h s' copy) spec.root copied.root
  same : ∃ t, spec.unfold s = some t ∧ copied.unfold s' = some t ∧
    ∀ dialect table columns,
      spec.select dialect table columns s = some (Selection.make dialect table columns (some t)) ∧
      copied.select dialect table columns s' = some (Selection.make dialect table columns (some t))
  kept : ∀ k ∈ s, ∃ t, s.ReadsAs k t ∧ s'.ReadsAs k t

namespace Store

/-- The copy of a handle or of a spec is a full one, and it is on its own. -/
theorem Sound.copies_separate {s : Store} (hs : s.Sound) :
    (∀ h ∈ s, ∃ copy s', s.copy h = some (copy, s') ∧ s.IsCopy h s' copy) ∧
    ∀ spec : SharedSpec, (∀ h ∈ spec.root, h ∈ s) →
      ∃ copied s', spec.deepCopy s = some (copied, s') ∧ spec.IsCopy s s' copied := by
  have hcopy : ∀ h ∈ s, ∃ copy s', s.copy h = some (copy, s') ∧ s.IsCopy h s' copy := by
    intro h hh
    obtain ⟨t, ht⟩ := hs.exists_stands hh
    exact ⟨_, _, copy_eq ht, isCopy_build hs ht⟩
  refine ⟨hcopy, fun spec hroot => ?_⟩
  cases hspec : spec.root with
  | none =>
    have hunfold : spec.unfold s = some (spec.withRoot none) :=
      SharedSpec.unfold_eq (hspec ▸ .none)
    have hselect := SharedSpec.select_of_unfold hunfold
    refine ⟨spec, s, by rw [SharedSpec.deepCopy, hspec], rfl, rfl, rfl, ?_,
      ⟨_, hunfold, hunfold, fun dialect table columns =>
        ⟨hselect dialect table columns, hselect dialect table columns⟩⟩,
      fun k hk => (Keeps.refl s).readsAs hs hk⟩
    rw [hspec]
    exact .none
  | some h =>
    obtain ⟨t, ht⟩ := hs.exists_stands (hroot h hspec)
    have hcopied := isCopy_build hs ht
    have hunfold : spec.unfold s = some (spec.withRoot (some t)) :=
      SharedSpec.unfold_eq (hspec ▸ .some ht)
    have hunfolded : SharedSpec.unfold (spec.withRoot (some (Store.build t s).1))
        (Store.build t s).2 = some (spec.withRoot (some t)) :=
      SharedSpec.unfold_eq (.some (stands_build t s))
    refine ⟨_, _, deepCopy_eq hspec ht, rfl, rfl, rfl, ?_,
      ⟨_, hunfold, hunfolded, fun dialect table columns =>
        ⟨SharedSpec.select_of_unfold hunfold dialect table columns,
          SharedSpec.select_of_unfold hunfolded dialect table columns⟩⟩,
      hcopied.kept⟩
    rw [hspec]
    exact .some hcopied

/-- A leaf that a group holds twice, under a group that holds both. -/
def diamond : Store :=
  ⟨#[.leaf (.unary .isNull "a"), .group .and [⟨0⟩, ⟨0⟩], .group .or [⟨1⟩, ⟨0⟩]]⟩

theorem sound_diamond : diamond.Sound := sound_of_descends (by decide)

/-- The copy of the diamond has five nodes, as its tree has. Pushing the old leaf to the copy is not
seen by the old root. -/
theorem copies_separate_diamond :
    diamond.Sound ∧ (⟨2⟩ : Handle) ∈ diamond ∧
      (∃ s', diamond.copy ⟨2⟩ = some (⟨7⟩, s') ∧ diamond.IsCopy ⟨2⟩ s' ⟨7⟩ ∧
        ∃ t, diamond.ReadsAs ⟨2⟩ t ∧ (s'.after [.push ⟨7⟩ ⟨0⟩]).ReadsAs ⟨2⟩ t) ∧
      ∃ copied s', SharedSpec.deepCopy ⟨some ⟨2⟩, [], none, some 5⟩ diamond = some (copied, s') ∧
        SharedSpec.IsCopy diamond ⟨some ⟨2⟩, [], none, some 5⟩ s' copied := by
  have hmem : (⟨2⟩ : Handle) ∈ diamond := by
    show 2 < 3
    omega
  obtain ⟨hcopies, hspecs⟩ := sound_diamond.copies_separate
  refine ⟨sound_diamond, hmem, ?_, hspecs _ ?_⟩
  · obtain ⟨copy, s', hcopy, hiscopy⟩ := hcopies ⟨2⟩ hmem
    have hseven : copy = ⟨7⟩ := by
      have hrun : (diamond.copy ⟨2⟩).map Prod.fst = some ⟨7⟩ := rfl
      rw [hcopy] at hrun
      exact Option.some.inj hrun
    subst hseven
    refine ⟨s', hcopy, hiscopy, hiscopy.unseen [.push ⟨7⟩ ⟨0⟩] ?_ ⟨2⟩ hmem⟩
    intro change hchange k hk
    cases List.mem_singleton.mp hchange
    cases hk
    exact .inl .refl
  · intro h hh
    cases hh
    exact hmem

end Store

end FilterQuery
