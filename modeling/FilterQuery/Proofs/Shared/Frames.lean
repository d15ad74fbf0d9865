import FilterQuery.Proofs.Shared.Standing

/-!
# What a change leaves alone

A handle stands for the same tree as long as nothing changes behind the handles that it reaches.
Where something changes behind one of them, the tree of that handle is exchanged at every place
where it occurs, and nowhere else.
-/
namespace FilterQuery

namespace Condition

/-- A condition with places that are left open. -/
inductive Context where
  | hole
  | leaf (p : Predicate)
  | group (c : Connective) (children : List Context)

namespace Context

mutual

/-- The condition with one and the same tree at all open places. -/
def fill (t : Condition) : Context → Condition
  | hole => t
  | leaf p => .leaf p
  | group c children => .group c (fillAll t children)

def fillAll (t : Condition) : List Context → List Condition
  | [] => []
  | x :: xs => x.fill t :: fillAll t xs

end

mutual

/-- A place is left open. -/
def isOpen : Context → Bool
  | hole => true
  | leaf _ => false
  | group _ children => anyOpen children

def anyOpen : List Context → Bool
  | [] => false
  | x :: xs => x.isOpen || anyOpen xs

end

mutual

/-- Where a place is left open, the tree can be told from what it was put into. -/
theorem fill_inj {x : Context} (hopen : x.isOpen = true) {t u : Condition}
    (h : x.fill t = x.fill u) : t = u := by
  cases x with
  | hole => exact h
  | leaf p => cases hopen
  | group c children =>
    simp only [fill, Condition.group.injEq, true_and] at h
    exact fillAll_inj hopen h

theorem fillAll_inj {xs : List Context} (hopen : anyOpen xs = true) {t u : Condition}
    (h : fillAll t xs = fillAll u xs) : t = u := by
  cases xs with
  | nil => cases hopen
  | cons x xs =>
    simp only [fillAll, List.cons.injEq] at h
    rcases Bool.or_eq_true_iff.mp hopen with hhead | htail
    · exact fill_inj hhead h.1
    · exact fillAll_inj htail h.2

end

end Context

end Condition

namespace Store

open Condition (Context)

/-- One reaches what lies below a child, and the handle itself. -/
theorem reaches_iff {s : Store} {h k : Handle} {n : Node} (hn : s.get? h = some n) :
    s.Reaches h k ↔ h = k ∨ ∃ j ∈ n.children, s.Reaches j k := by
  constructor
  · intro hk
    rcases Relation.ReflTransGen.cases_head hk with heq | ⟨j, ⟨m, hm, hj⟩, hjk⟩
    · exact .inl heq
    · rw [hn] at hm
      cases hm
      exact .inr ⟨j, hj, hjk⟩
  · intro hk
    rcases hk with rfl | ⟨j, hj, hjk⟩
    · exact .refl
    · exact .head ⟨n, hn, hj⟩ hjk

theorem Reaches.mem {s : Store} (hs : s.Closed) {h k : Handle} (hh : h ∈ s)
    (hk : s.Reaches h k) : k ∈ s := by
  induction hk with
  | refl => exact hh
  | tail _ hchild _ => exact hs _ _ hchild

mutual

/-- A handle stands for the same tree where all that it reaches is unchanged. -/
theorem Stands.transport {s s' : Store} {h : Handle} {t : Condition} (ht : Stands s h t)
    (hsame : ∀ k n, s.Reaches h k → s.get? k = some n → s'.get? k = some n) : Stands s' h t := by
  cases ht with
  | leaf node => exact .leaf (hsame h _ .refl node)
  | @group _ c hs ts node children =>
    have hchildren : ∀ j ∈ hs, ∀ k n, s.Reaches j k → s.get? k = some n → s'.get? k = some n :=
      fun j hj k n hk hn => hsame k n (.head ⟨_, node, hj⟩ hk) hn
    exact .group (hsame h _ .refl node) (AllStand.transport children hchildren)

theorem AllStand.transport {s s' : Store} {hs : List Handle} {ts : List Condition}
    (hts : AllStand s hs ts)
    (hsame : ∀ j ∈ hs, ∀ k n, s.Reaches j k → s.get? k = some n → s'.get? k = some n) :
    AllStand s' hs ts := by
  cases hts with
  | nil => exact .nil
  | cons head tail =>
    rw [List.forall_mem_cons] at hsame
    exact .cons (Stands.transport head hsame.1) (AllStand.transport tail hsame.2)

end

/-- All nodes of a store are in the other store too, behind the same handles. -/
def Keeps (s s' : Store) : Prop := ∀ h n, s.get? h = some n → s'.get? h = some n

theorem Keeps.refl (s : Store) : s.Keeps s := fun _ _ hn => hn

theorem Keeps.trans {s s' s'' : Store} (h : s.Keeps s') (h' : s'.Keeps s'') : s.Keeps s'' :=
  fun k n hn => h' k n (h k n hn)

theorem Keeps.mem {s s' : Store} (h : s.Keeps s') {k : Handle} (hk : k ∈ s) : k ∈ s' := by
  obtain ⟨n, hn⟩ := mem_iff.mp hk
  exact mem_of_get? (h k n hn)

theorem Keeps.stands {s s' : Store} (h : s.Keeps s') {k : Handle} {t : Condition}
    (ht : Stands s k t) : Stands s' k t := ht.transport fun j n _ hn => h j n hn

theorem Keeps.allStand {s s' : Store} (h : s.Keeps s') {hs : List Handle} {ts : List Condition}
    (hts : AllStand s hs ts) : AllStand s' hs ts := hts.transport fun _ _ j n _ hn => h j n hn

theorem rel_stands_of_forall {s s' : Store} {root : Option Handle} {t : Option Condition}
    (ht : Option.Rel (Stands s) root t) (h : ∀ k ∈ root, ∀ u, Stands s k u → Stands s' k u) :
    Option.Rel (Stands s') root t := by
  cases ht with
  | none => exact .none
  | some hroot => exact .some (h _ rfl _ hroot)

theorem Keeps.rel_stands {s s' : Store} (h : s.Keeps s') {root : Option Handle}
    {t : Option Condition} (ht : Option.Rel (Stands s) root t) : Option.Rel (Stands s') root t :=
  rel_stands_of_forall ht fun _ _ _ hu => h.stands hu

/-- What is kept leads to nothing that is new. -/
theorem Keeps.mem_of_reaches {s s' : Store} (h : s.Keeps s') (hs : s.Closed) {k j : Handle}
    (hk : k ∈ s) (hj : s'.Reaches k j) : j ∈ s := by
  induction hj with
  | refl => exact hk
  | tail _ hchild ih =>
    obtain ⟨n, hn, hmem⟩ := hchild
    obtain ⟨m, hm⟩ := mem_iff.mp ih
    have hsame := h _ m hm
    rw [hn] at hsame
    cases hsame
    exact hs _ _ ⟨n, hm, hmem⟩

mutual

/-- The tree of a handle is a context around each place where one of its nodes is `target`. Another
store that differs behind `target` only has the same context around what `target` stands for
there. -/
theorem Stands.exists_context {s : Store} {h : Handle} {t : Condition} (ht : Stands s h t)
    (target : Handle) :
    ∃ context : Context, (context.isOpen = true ↔ s.Reaches h target) ∧
      ∀ s' u, (∀ k n, k ≠ target → s.get? k = some n → s'.get? k = some n) →
        Stands s' target u → Stands s' h (context.fill u) := by
  by_cases heq : h = target
  · subst heq
    exact ⟨.hole, iff_of_true rfl .refl, fun s' u _ hu => hu⟩
  · cases ht with
    | @leaf _ p node =>
      refine ⟨.leaf p, ?_, fun s' u hsame _ => .leaf (hsame h _ heq node)⟩
      rw [reaches_iff node]
      simp [Context.isOpen, Node.children, heq]
    | @group _ c hs ts node children =>
      obtain ⟨contexts, hopen, hfill⟩ := AllStand.exists_contexts children target
      refine ⟨.group c contexts, ?_, fun s' u hsame hu =>
        .group (hsame h _ heq node) (hfill s' u hsame hu)⟩
      rw [reaches_iff node]
      simp only [Context.isOpen, Node.children, hopen, heq, false_or]

theorem AllStand.exists_contexts {s : Store} {hs : List Handle} {ts : List Condition}
    (hts : AllStand s hs ts) (target : Handle) :
    ∃ contexts : List Context,
      (Context.anyOpen contexts = true ↔ ∃ j ∈ hs, s.Reaches j target) ∧
      ∀ s' u, (∀ k n, k ≠ target → s.get? k = some n → s'.get? k = some n) →
        Stands s' target u → AllStand s' hs (Context.fillAll u contexts) := by
  cases hts with
  | nil => exact ⟨[], by simp [Context.anyOpen], fun s' u _ _ => .nil⟩
  | cons head tail =>
    obtain ⟨context, hopen, hfill⟩ := Stands.exists_context head target
    obtain ⟨contexts, hopens, hfills⟩ := AllStand.exists_contexts tail target
    refine ⟨context :: contexts, ?_, fun s' u hsame hu =>
      .cons (hfill s' u hsame hu) (hfills s' u hsame hu)⟩
    simp only [Context.anyOpen, Bool.or_eq_true, hopen, hopens, List.exists_mem_cons_iff]

end

theorem keeps_add (s : Store) (n : Node) : s.Keeps (s.add n).2 := by
  intro k m hm
  rw [get?_add_of_ne, hm]
  intro hk
  have hmem : k.index < s.size := mem_of_get? hm
  rw [hk] at hmem
  exact Nat.lt_irrefl _ hmem

theorem fresh_add (s : Store) (n : Node) : (s.add n).1 ∉ s := fun hmem => Nat.lt_irrefl _ hmem

theorem mem_add_self (s : Store) (n : Node) : (s.add n).1 ∈ (s.add n).2 :=
  mem_of_get? (s.get?_add_self n)

/-- The node behind a handle after one more has been added. -/
theorem get?_add_eq_some {s : Store} {n m : Node} {k : Handle}
    (hm : (s.add n).2.get? k = some m) : s.get? k = some m ∨ (k = (s.add n).1 ∧ m = n) := by
  by_cases hk : k = (s.add n).1
  · subst hk
    rw [get?_add_self] at hm
    exact .inr ⟨rfl, (Option.some.inj hm).symm⟩
  · rw [get?_add_of_ne hk] at hm
    exact .inl hm

/-- The node behind a handle after one has been exchanged. -/
theorem get?_put_eq_some {s : Store} {h k : Handle} {n m : Node}
    (hm : (s.put h n).get? k = some m) : s.get? k = some m ∨ (k = h ∧ m = n) := by
  by_cases hk : k = h
  · subst hk
    have hmem : k ∈ s := by
      show k.index < s.size
      rw [← size_put s k n]
      exact mem_of_get? hm
    obtain ⟨old, hold⟩ := mem_iff.mp hmem
    rw [get?_put_self hold] at hm
    exact .inr ⟨rfl, (Option.some.inj hm).symm⟩
  · rw [get?_put_of_ne hk] at hm
    exact .inl hm

theorem Closed.add {s : Store} (hs : s.Closed) {n : Node} (hn : ∀ k ∈ n.children, k ∈ s) :
    (s.add n).2.Closed := by
  intro h k ⟨m, hm, hk⟩
  apply (s.keeps_add n).mem
  rcases get?_add_eq_some hm with hold | ⟨_, rfl⟩
  · exact hs h k ⟨m, hold, hk⟩
  · exact hn k hk

theorem Closed.put {s : Store} (hs : s.Closed) (h : Handle) {n : Node}
    (hn : ∀ k ∈ n.children, k ∈ s) : (s.put h n).Closed := by
  intro j k ⟨m, hm, hk⟩
  show k.index < (s.put h n).size
  rw [size_put]
  rcases get?_put_eq_some hm with hold | ⟨_, rfl⟩
  · exact hs j k ⟨m, hold, hk⟩
  · exact hn k hk

/-- Below an old handle a new node adds nothing. -/
theorem Closed.transGen_of_add {s : Store} (hs : s.Closed) {n : Node} {h k : Handle} (hh : h ∈ s)
    (hk : Relation.TransGen (s.add n).2.Child h k) : Relation.TransGen s.Child h k := by
  have hstep : ∀ j l, j ∈ s → (s.add n).2.Child j l → s.Child j l := by
    intro j l hj ⟨m, hm, hl⟩
    rcases get?_add_eq_some hm with hold | ⟨rfl, _⟩
    · exact ⟨m, hold, hl⟩
    · exact absurd hj (s.fresh_add n)
  suffices hboth : Relation.TransGen s.Child h k ∧ k ∈ s from hboth.1
  induction hk with
  | single hchild =>
    have hold := hstep _ _ hh hchild
    exact ⟨.single hold, hs _ _ hold⟩
  | tail _ hchild ih =>
    have hold := hstep _ _ ih.2 hchild
    exact ⟨.tail ih.1 hold, hs _ _ hold⟩

/-- A new node is held by no other one, so it makes no cycle. -/
theorem Sound.add {s : Store} (hs : s.Sound) {n : Node} (hn : ∀ k ∈ n.children, k ∈ s) :
    (s.add n).2.Sound := by
  refine ⟨hs.closed.add hn, fun h hcycle => ?_⟩
  have hmem : h ∈ s := by
    obtain ⟨j, _, m, hm, hh⟩ := Relation.TransGen.tail'_iff.mp hcycle
    rcases get?_add_eq_some hm with hold | ⟨_, rfl⟩
    · exact hs.closed j h ⟨m, hold, hh⟩
    · exact hn h hh
  exact hs.acyclic h (hs.closed.transGen_of_add hmem hcycle)

/-- Joining a node to a root makes no cycle. -/
theorem Sound.add_joined {s : Store} (hs : s.Sound) {root : Option Handle}
    (hroot : ∀ h ∈ root, h ∈ s) {node : Handle} (hnode : node ∈ s) (c : Connective) :
    (s.add (.group c (Spec.joined root node))).2.Sound := by
  apply hs.add
  intro k hk
  rcases List.mem_append.mp hk with hold | hnew
  · exact hroot k (Option.mem_toList.mp hold)
  · cases List.mem_singleton.mp hnew
    exact hnode

/-- What clients do to the nodes of a store. -/
inductive Change where
  /-- Puts a node behind a fresh handle. -/
  | create (n : Node)
  /-- Adds a child at the end of a group; nothing happens to a leaf. -/
  | push (h child : Handle)
  /-- Puts another node behind a handle. -/
  | replace (h : Handle) (n : Node)

namespace Change

/-- The handle behind which something changes. -/
def target? : Change → Option Handle
  | create _ => none
  | push h _ => some h
  | replace h _ => some h

/-- The handles that are put into a node. -/
def handles : Change → List Handle
  | create n => n.children
  | push _ child => [child]
  | replace _ n => n.children

end Change

def change (s : Store) : Change → Store
  | .create n => (s.add n).2
  | .push h child => (s.pushChild h child).getD s
  | .replace h n => s.put h n

def after (s : Store) (changes : List Change) : Store := changes.foldl change s

/-- Pushing is putting another node, or nothing. -/
theorem change_push (s : Store) (h child : Handle) :
    (∃ c children, s.get? h = some (.group c children) ∧
      s.change (.push h child) = s.put h (.group c (children ++ [child]))) ∨
    ((∀ c children, s.get? h ≠ some (.group c children)) ∧ s.change (.push h child) = s) := by
  show (∃ c children, _ ∧ (s.pushChild h child).getD s = _) ∨
    (_ ∧ (s.pushChild h child).getD s = s)
  unfold pushChild modifyGroup group?
  split
  · next c children hnode => exact .inl ⟨c, children, hnode, rfl⟩
  · next hleaf => exact .inr ⟨hleaf, rfl⟩

/-- A change leaves every node but its target. -/
theorem get?_change {s : Store} {change : Change} {k : Handle} {n : Node} (hn : s.get? k = some n)
    (hk : change.target? ≠ some k) : (s.change change).get? k = some n := by
  cases change with
  | create m => exact s.keeps_add m k n hn
  | push h child =>
    have hne : k ≠ h := fun heq => hk (congrArg some heq.symm)
    rcases s.change_push h child with ⟨c, children, _, heq⟩ | ⟨_, heq⟩
    · rw [heq, get?_put_of_ne hne, hn]
    · rw [heq, hn]
  | replace h m =>
    have hne : k ≠ h := fun heq => hk (congrArg some heq.symm)
    show (s.put h m).get? k = some n
    rw [get?_put_of_ne hne, hn]

theorem get?_change_of_ne {s : Store} {change : Change} {h k : Handle} {n : Node}
    (htarget : change.target? = some h) (hne : k ≠ h) (hn : s.get? k = some n) :
    (s.change change).get? k = some n := by
  apply get?_change hn
  rw [htarget]
  exact fun heq => hne (Option.some.inj heq).symm

theorem mem_change {s : Store} (change : Change) {k : Handle} (hk : k ∈ s) :
    k ∈ s.change change := by
  have hsize : s.size ≤ (s.change change).size := by
    cases change with
    | create m =>
      show s.size ≤ (s.add m).2.size
      rw [size_add]
      omega
    | push h child =>
      rcases s.change_push h child with ⟨c, children, _, heq⟩ | ⟨_, heq⟩
      · rw [heq, size_put]
      · rw [heq]
    | replace h m =>
      show s.size ≤ (s.put h m).size
      rw [size_put]
  exact Nat.lt_of_lt_of_le hk hsize

theorem Closed.change {s : Store} (hs : s.Closed) {change : Change}
    (hchange : ∀ k ∈ change.handles, k ∈ s) : (s.change change).Closed := by
  cases change with
  | create n => exact hs.add hchange
  | replace h n => exact hs.put h hchange
  | push h child =>
    rcases s.change_push h child with ⟨c, children, hnode, heq⟩ | ⟨_, heq⟩
    · rw [heq]
      apply hs.put
      intro k hk
      rcases List.mem_append.mp hk with hold | hnew
      · exact hs h k ⟨_, hnode, hold⟩
      · exact hchange k hnew
    · rw [heq]
      exact hs

/-- What stands behind the target of a change, told from the trees before it. A group has the tree
of the new child at its end, and a leaf is left alone. A node that is put there has the trees of its
own handles. -/
inductive Becomes (s : Store) : Change → Condition → Condition → Prop where
  | pushed {h child : Handle} {c : Connective} {ts : List Condition} {t : Condition}
      (added : Stands s child t) :
      Becomes s (.push h child) (.group c ts) (.group c (ts ++ [t]))
  | kept {h child : Handle} {p : Predicate} : Becomes s (.push h child) (.leaf p) (.leaf p)
  | leaf {h : Handle} {old : Condition} {p : Predicate} :
      Becomes s (.replace h (.leaf p)) old (.leaf p)
  | group {h : Handle} {old : Condition} {c : Connective} {hs : List Handle}
      {ts : List Condition} (children : AllStand s hs ts) :
      Becomes s (.replace h (.group c hs)) old (.group c ts)

/-- Whether a handle is reached does not depend on the node behind it. -/
theorem Reaches.of_same {s s' : Store} {k target : Handle} (hk : s.Reaches k target)
    (hsame : ∀ j n, j ≠ target → s.get? j = some n → s'.get? j = some n) :
    s'.Reaches k target := by
  induction hk using Relation.ReflTransGen.head_induction_on with
  | refl => exact .refl
  | @head k j hchild _ ih =>
    by_cases heq : k = target
    · rw [heq]
      exact .refl
    · obtain ⟨n, hn, hj⟩ := hchild
      exact .head ⟨n, hsame k n heq hn, hj⟩ ih

/-- A group that a change has put behind its target cannot be reached from its children, so these
stand for the same trees as before. -/
theorem AllStand.stands_changed {s : Store} {change : Change} {h : Handle} {c : Connective}
    {hs : List Handle} {ts : List Condition} (hts : AllStand s hs ts)
    (htarget : change.target? = some h) (hacyclic : (s.change change).Acyclic)
    (hput : (s.change change).get? h = some (.group c hs)) :
    Stands (s.change change) h (.group c ts) := by
  apply Stands.group hput
  apply hts.transport
  intro j hj k n hk hn
  have hne : k ≠ h := by
    rintro rfl
    have hback : (s.change change).Reaches j k :=
      hk.of_same fun i m hi hm => get?_change_of_ne htarget hi hm
    exact hacyclic k (.head' ⟨_, hput, hj⟩ hback)
  exact get?_change_of_ne htarget hne hn

theorem Stands.exists_pushed {s : Store} {h child : Handle} {old t : Condition}
    (hold : Stands s h old) (hchild : Stands s child t)
    (hacyclic : (s.change (.push h child)).Acyclic) :
    ∃ new, s.Becomes (.push h child) old new ∧ Stands (s.change (.push h child)) h new := by
  rcases s.change_push h child with ⟨c, children, hgroup, heq⟩ | ⟨hleaf, heq⟩
  · have hput : (s.change (.push h child)).get? h = some (.group c (children ++ [child])) := by
      rw [heq]
      exact get?_put_self hgroup
    cases hold with
    | leaf node =>
      rw [hgroup] at node
      cases node
    | group node hts =>
      rw [hgroup] at node
      cases node
      exact ⟨_, .pushed hchild, (hts.concat hchild).stands_changed rfl hacyclic hput⟩
  · cases hold with
    | leaf node =>
      rw [heq]
      exact ⟨_, .kept, .leaf node⟩
    | group node _ => exact absurd node (hleaf _ _)

theorem Stands.exists_replaced {s : Store} {h : Handle} {n : Node} {old : Condition}
    (hold : Stands s h old) (hn : ∀ k ∈ n.children, ∃ t, Stands s k t)
    (hacyclic : (s.change (.replace h n)).Acyclic) :
    ∃ new, s.Becomes (.replace h n) old new ∧ Stands (s.change (.replace h n)) h new := by
  obtain ⟨before, hbefore⟩ := mem_iff.mp hold.mem
  have hput : (s.change (.replace h n)).get? h = some n := get?_put_self hbefore
  cases n with
  | leaf p => exact ⟨_, .leaf, .leaf hput⟩
  | group c children =>
    obtain ⟨ts, hts⟩ := exists_allStand hn
    exact ⟨_, .group hts, hts.stands_changed rfl hacyclic hput⟩

/-- What stands behind the target of a change afterwards, where the change makes no cycle. -/
theorem Sound.exists_becomes {s : Store} (hs : s.Sound) {change : Change} {h : Handle}
    {old : Condition} (htarget : change.target? = some h) (hold : Stands s h old)
    (hknown : ∀ k ∈ change.handles, k ∈ s) (hacyclic : (s.change change).Acyclic) :
    ∃ new, s.Becomes change old new ∧ Stands (s.change change) h new := by
  cases change with
  | create n => cases htarget
  | push h child =>
    cases htarget
    obtain ⟨t, ht⟩ := hs.exists_stands (hknown child (List.mem_singleton.mpr rfl))
    exact hold.exists_pushed ht hacyclic
  | replace h n =>
    cases htarget
    exact hold.exists_replaced (fun k hk => hs.exists_stands (hknown k hk)) hacyclic

/-- Changes leave every node that is the target of none of them. -/
theorem get?_after {s : Store} {changes : List Change} {k : Handle} {n : Node}
    (hn : s.get? k = some n) (hk : ∀ change ∈ changes, change.target? ≠ some k) :
    (s.after changes).get? k = some n := by
  induction changes generalizing s with
  | nil => exact hn
  | cons change changes ih =>
    rw [List.forall_mem_cons] at hk
    exact ih (get?_change hn hk.1) hk.2

/-- All that changes lies behind handles of one side. -/
def Confined (side : Handle → Prop) (changes : List Change) : Prop :=
  ∀ change ∈ changes, ∀ k, change.target? = some k → side k

/-- A handle stands for the same tree after changes of nodes that it does not reach. -/
theorem Stands.after {s : Store} {h : Handle} {t : Condition} (ht : Stands s h t)
    {changes : List Change} (hapart : Confined (fun k => ¬ s.Reaches h k) changes) :
    Stands (s.after changes) h t := by
  apply ht.transport
  intro k n hk hn
  apply get?_after hn
  intro change hchange htarget
  exact hapart change hchange k htarget hk

end Store

end FilterQuery
