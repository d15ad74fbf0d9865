import FilterQuery.Shared.Walk
import Mathlib.Data.Fintype.Card
import Mathlib.Data.Fintype.EquivFin
import Mathlib.Order.WellFounded

/-!
# What handles stand for

A handle stands for a tree if the nodes below it, read one after the other, make up that tree. The
bound on levels under which trees are unfolded is never felt: a tree that a store holds has at most
as many levels as the store has nodes. In a store without cycles every handle stands for a tree.
-/
namespace FilterQuery

/-- The handles that a node holds. -/
def Node.children : Node → List Handle
  | leaf _ => []
  | group _ children => children

namespace Store

instance : Membership Handle Store := ⟨fun s h => h.index < s.size⟩

instance (h : Handle) (s : Store) : Decidable (h ∈ s) :=
  inferInstanceAs (Decidable (h.index < s.size))

theorem mem_iff {s : Store} {h : Handle} : h ∈ s ↔ ∃ n, s.get? h = some n := by
  show h.index < s.nodes.size ↔ _
  unfold get?
  constructor
  · intro hlt
    exact ⟨s.nodes[h.index], Array.getElem?_eq_getElem hlt⟩
  · intro ⟨n, hn⟩
    exact (Array.getElem?_eq_some_iff.mp hn).1

theorem mem_of_get? {s : Store} {h : Handle} {n : Node} (hn : s.get? h = some n) : h ∈ s :=
  mem_iff.mpr ⟨n, hn⟩

/-- The handle `k` is held by the node behind `h`. -/
def Child (s : Store) (h k : Handle) : Prop := ∃ n, s.get? h = some n ∧ k ∈ n.children

/-- The handle `k` is `h` or lies below it. -/
def Reaches (s : Store) : Handle → Handle → Prop := Relation.ReflTransGen s.Child

/-- No node lies below itself. -/
def Acyclic (s : Store) : Prop := ∀ h, ¬ Relation.TransGen s.Child h h

/-- Nodes hold handles of the store only. -/
def Closed (s : Store) : Prop := ∀ h k, s.Child h k → k ∈ s

/-- What clients keep of a store: no handle leads out of it, and there are no cycles. -/
structure Sound (s : Store) : Prop where
  closed : s.Closed
  acyclic : s.Acyclic

mutual

/-- The handle stands for the tree. -/
inductive Stands (s : Store) : Handle → Condition → Prop where
  | leaf {h : Handle} {p : Predicate} (node : s.get? h = some (.leaf p)) : Stands s h (.leaf p)
  | group {h : Handle} {c : Connective} {hs : List Handle} {ts : List Condition}
      (node : s.get? h = some (.group c hs)) (children : AllStand s hs ts) :
      Stands s h (.group c ts)

/-- The handles stand for the trees, one by one. -/
inductive AllStand (s : Store) : List Handle → List Condition → Prop where
  | nil : AllStand s [] []
  | cons {h : Handle} {hs : List Handle} {t : Condition} {ts : List Condition}
      (head : Stands s h t) (tail : AllStand s hs ts) : AllStand s (h :: hs) (t :: ts)

end

theorem Stands.mem {s : Store} {h : Handle} {t : Condition} (ht : Stands s h t) : h ∈ s := by
  cases ht with
  | leaf node => exact mem_of_get? node
  | group node children => exact mem_of_get? node

mutual

/-- A handle stands for one tree at most. -/
theorem Stands.unique {s : Store} {h : Handle} {t u : Condition} (ht : Stands s h t)
    (hu : Stands s h u) : t = u := by
  cases ht with
  | leaf node =>
    cases hu with
    | leaf node' =>
      rw [node] at node'
      cases node'
      rfl
    | group node' _ =>
      rw [node] at node'
      cases node'
  | group node children =>
    cases hu with
    | leaf node' =>
      rw [node] at node'
      cases node'
    | group node' children' =>
      rw [node] at node'
      cases node'
      rw [AllStand.unique children children']

theorem AllStand.unique {s : Store} {hs : List Handle} {ts us : List Condition}
    (hts : AllStand s hs ts) (hus : AllStand s hs us) : ts = us := by
  cases hts with
  | nil =>
    cases hus
    rfl
  | cons head tail =>
    cases hus with
    | cons head' tail' => rw [Stands.unique head head', AllStand.unique tail tail']

end

theorem AllStand.concat {s : Store} {hs : List Handle} {ts : List Condition}
    (hts : AllStand s hs ts) {h : Handle} {t : Condition} (ht : Stands s h t) :
    AllStand s (hs ++ [h]) (ts ++ [t]) := by
  cases hts with
  | nil => exact .cons ht .nil
  | cons head tail => exact .cons head (AllStand.concat tail ht)

mutual

/-- Every number of levels up to that of a tree is the number of levels of a tree in it. -/
theorem Stands.exists_of_depth {s : Store} {h : Handle} {t : Condition} (ht : Stands s h t)
    {levels : Nat} (hpos : 0 < levels) (hle : levels ≤ t.depth) :
    ∃ k u, Stands s k u ∧ u.depth = levels := by
  cases ht with
  | @leaf _ p node =>
    refine ⟨h, .leaf p, .leaf node, ?_⟩
    simp only [Condition.depth] at hle ⊢
    omega
  | @group _ c hs ts node children =>
    by_cases hall : levels = (Condition.group c ts).depth
    · exact ⟨h, .group c ts, .group node children, hall.symm⟩
    · apply AllStand.exists_of_depth children hpos
      simp only [Condition.depth] at hle hall
      omega

theorem AllStand.exists_of_depth {s : Store} {hs : List Handle} {ts : List Condition}
    (hts : AllStand s hs ts) {levels : Nat} (hpos : 0 < levels)
    (hle : levels ≤ Condition.depths ts) : ∃ k u, Stands s k u ∧ u.depth = levels := by
  cases hts with
  | nil =>
    simp only [Condition.depths] at hle
    omega
  | @cons _ _ t ts head tail =>
    by_cases hhead : levels ≤ t.depth
    · exact Stands.exists_of_depth head hpos hhead
    · apply AllStand.exists_of_depth tail hpos
      simp only [Condition.depths] at hle
      omega

end

/-- A tree has at most as many levels as the store has nodes. -/
theorem Stands.depth_le_size {s : Store} {h : Handle} {t : Condition} (ht : Stands s h t) :
    t.depth ≤ s.size := by
  have hlevel : ∀ i : Fin t.depth, ∃ j : Fin s.size, ∃ u, Stands s ⟨j⟩ u ∧ u.depth = i + 1 := by
    intro i
    have hpos : 0 < i.val + 1 := Nat.succ_pos _
    obtain ⟨k, u, hu, hdepth⟩ := ht.exists_of_depth hpos i.isLt
    exact ⟨⟨k.index, hu.mem⟩, u, hu, hdepth⟩
  choose node tree htree hdepth using hlevel
  -- Two levels cannot belong to the same node, which stands for one tree only.
  have hinj : Function.Injective node := by
    intro i j hij
    have hsame := htree j
    rw [← hij] at hsame
    have htrees := (htree i).unique hsame
    have hi := hdepth i
    have hj := hdepth j
    rw [htrees] at hi
    omega
  have hcard := Fintype.card_le_of_injective node hinj
  simpa using hcard

mutual

theorem Stands.unfoldWithin_eq {s : Store} {h : Handle} {t : Condition} (ht : Stands s h t)
    {levels : Nat} (hlevels : t.depth ≤ levels) : s.unfoldWithin levels h = some t := by
  cases levels with
  | zero => cases t <;> simp [Condition.depth] at hlevels
  | succ levels =>
    cases ht with
    | leaf node => simp only [unfoldWithin, node]
    | @group _ c hs ts node children =>
      have hts : Condition.depths ts ≤ levels := by
        simp only [Condition.depth] at hlevels
        omega
      simp only [unfoldWithin, node, AllStand.mapM_eq children hts, Option.map_some]

theorem AllStand.mapM_eq {s : Store} {hs : List Handle} {ts : List Condition}
    (hts : AllStand s hs ts) {levels : Nat} (hlevels : Condition.depths ts ≤ levels) :
    hs.mapM (s.unfoldWithin levels) = some ts := by
  cases hts with
  | nil => rfl
  | @cons h hs t ts head tail =>
    simp only [Condition.depths] at hlevels
    have hhead : s.unfoldWithin levels h = some t := Stands.unfoldWithin_eq head (by omega)
    have htail : hs.mapM (s.unfoldWithin levels) = some ts := AllStand.mapM_eq tail (by omega)
    simp [List.mapM_cons, hhead, htail]

end

theorem allStand_of_mapM {s : Store} {f : Handle → Option Condition}
    (hf : ∀ h t, f h = some t → Stands s h t) {hs : List Handle} {ts : List Condition}
    (h : hs.mapM f = some ts) : AllStand s hs ts := by
  induction hs generalizing ts with
  | nil =>
    cases h
    exact .nil
  | cons k hs ih =>
    rw [List.mapM_cons] at h
    cases hk : f k with
    | none => simp [hk] at h
    | some t =>
      cases hrest : hs.mapM f with
      | none => simp [hk, hrest] at h
      | some us =>
        simp only [hk, hrest, Option.bind_eq_bind, Option.bind_some, Option.pure_def] at h
        cases h
        exact .cons (hf k t hk) (ih hrest)

theorem stands_of_unfoldWithin {s : Store} {levels : Nat} {h : Handle} {t : Condition}
    (ht : s.unfoldWithin levels h = some t) : Stands s h t := by
  induction levels generalizing h t with
  | zero => cases ht
  | succ levels ih =>
    unfold unfoldWithin at ht
    split at ht
    · next p node =>
      cases ht
      exact .leaf node
    · next c hs node =>
      obtain ⟨ts, hts, rfl⟩ := Option.map_eq_some_iff.mp ht
      exact .group node (allStand_of_mapM (fun k u hu => ih hu) hts)
    · cases ht

/-- Unfolding a handle gives the tree that it stands for. -/
theorem unfold_eq_some_iff {s : Store} {h : Handle} {t : Condition} :
    s.unfold h = some t ↔ Stands s h t :=
  ⟨stands_of_unfoldWithin, fun ht => ht.unfoldWithin_eq ht.depth_le_size⟩

theorem Stands.unfold_eq {s : Store} {h : Handle} {t : Condition} (ht : Stands s h t) :
    s.unfold h = some t := unfold_eq_some_iff.mpr ht

theorem exists_allStand {s : Store} {hs : List Handle} (h : ∀ k ∈ hs, ∃ t, Stands s k t) :
    ∃ ts, AllStand s hs ts := by
  induction hs with
  | nil => exact ⟨[], .nil⟩
  | cons k hs ih =>
    obtain ⟨t, ht⟩ := h k List.mem_cons_self
    obtain ⟨ts, hts⟩ := ih fun j hj => h j (List.mem_cons_of_mem k hj)
    exact ⟨t :: ts, .cons ht hts⟩

/-- In a finite store without cycles one cannot go down for ever. -/
theorem Acyclic.wellFounded {s : Store} (hs : s.Acyclic) :
    WellFounded fun i j : Fin s.size => Relation.TransGen s.Child ⟨j⟩ ⟨i⟩ := by
  have : IsTrans (Fin s.size) fun i j => Relation.TransGen s.Child ⟨j⟩ ⟨i⟩ :=
    ⟨fun i j k hij hjk => hjk.trans hij⟩
  have : Std.Irrefl fun i j : Fin s.size => Relation.TransGen s.Child ⟨j⟩ ⟨i⟩ := ⟨fun i => hs ⟨i⟩⟩
  exact Finite.wellFounded_of_trans_of_irrefl _

/-- In a sound store every handle stands for a tree. -/
theorem Sound.exists_stands {s : Store} (hs : s.Sound) {h : Handle} (hh : h ∈ s) :
    ∃ t, Stands s h t := by
  suffices hall : ∀ i : Fin s.size, ∃ t, Stands s ⟨i⟩ t from hall ⟨h.index, hh⟩
  intro i
  induction i using hs.acyclic.wellFounded.induction with
  | _ i ih =>
    obtain ⟨n, hn⟩ := mem_iff.mp (show (⟨i⟩ : Handle) ∈ s from i.isLt)
    cases n with
    | leaf p => exact ⟨.leaf p, .leaf hn⟩
    | group c children =>
      have hchildren : ∀ k ∈ children, ∃ t, Stands s k t := by
        intro k hk
        have hchild : s.Child ⟨i⟩ k := ⟨_, hn, hk⟩
        exact ih ⟨k.index, hs.closed _ k hchild⟩ (.single hchild)
      obtain ⟨ts, hts⟩ := exists_allStand hchildren
      exact ⟨.group c ts, .group hn hts⟩

/-- A root that the store has stands for a tree, and no root for none. -/
theorem Sound.exists_rel_stands {s : Store} (hs : s.Sound) {root : Option Handle}
    (hroot : ∀ h ∈ root, h ∈ s) : ∃ t, Option.Rel (Stands s) root t := by
  cases root with
  | none => exact ⟨none, .none⟩
  | some h =>
    obtain ⟨t, ht⟩ := hs.exists_stands (hroot h rfl)
    exact ⟨some t, .some ht⟩

/-- A store in which every node only holds handles of earlier ones has no cycles. -/
theorem sound_of_descends {s : Store}
    (h : ∀ i : Fin s.nodes.size, ∀ k ∈ s.nodes[i].children, k.index < i) : s.Sound := by
  have hdown : ∀ j k, s.Child j k → j ∈ s ∧ k.index < j.index := by
    intro j k ⟨n, hn, hk⟩
    obtain ⟨hj, rfl⟩ := Array.getElem?_eq_some_iff.mp hn
    exact ⟨hj, h ⟨j.index, hj⟩ k hk⟩
  constructor
  · intro j k hchild
    obtain ⟨hj, hlt⟩ := hdown j k hchild
    exact Nat.lt_trans hlt hj
  · intro j hcycle
    have hbelow : ∀ k, Relation.TransGen s.Child j k → k.index < j.index := by
      intro k hk
      induction hk with
      | single hchild => exact (hdown _ _ hchild).2
      | tail _ hchild ih => exact Nat.lt_trans (hdown _ _ hchild).2 ih
    exact Nat.lt_irrefl _ (hbelow j hcycle)

end Store

end FilterQuery
