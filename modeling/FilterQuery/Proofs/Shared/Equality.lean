import FilterQuery.Proofs.Encode.Kept
import FilterQuery.Proofs.Shared.Copies
import Mathlib

/-!
# Equality of shared nodes

Two handles are compared node by node, but a handle equals itself without being looked at. As long
as all numbers equal themselves, the shortcut gives the answer that looking gives: handles are equal
if the trees are that they stand for, however nodes are shared.
-/
namespace FilterQuery

/-- Equal as numbers, as every number is to itself and the two zeros are to each other. -/
inductive SameNumber : Float → Float → Prop where
  | refl {x : Float} (number : x.isNaN = false) : SameNumber x x
  | zeros : SameNumber 0 (-0)
  | zeros_symm : SameNumber (-0) 0

theorem SameNumber.symm {x y : Float} (h : SameNumber x y) : SameNumber y x := by
  cases h with
  | refl number => exact .refl number
  | zeros => exact .zeros_symm
  | zeros_symm => exact .zeros

theorem zero_ne_nan : (0 : Float) ≠ Float.nan := Float.beq_self_iff.mp (by decide)

theorem neg_zero_ne_nan : (-0 : Float) ≠ Float.nan := Float.beq_self_iff.mp (by decide)

theorem beq_iff_sameNumber {x y : Float} : (x == y) = true ↔ SameNumber x y := by
  rw [Float.beq_iff_ne_nan_and_eq]
  constructor
  · rintro ⟨hx, -, rfl | ⟨rfl, rfl⟩ | ⟨rfl, rfl⟩⟩
    · exact .refl (by simpa using hx)
    · exact .zeros
    · exact .zeros_symm
  · intro h
    cases h with
    | refl number => simpa using number
    | zeros => exact ⟨zero_ne_nan, neg_zero_ne_nan, .inr (.inl ⟨rfl, rfl⟩)⟩
    | zeros_symm => exact ⟨neg_zero_ne_nan, zero_ne_nan, .inr (.inr ⟨rfl, rfl⟩)⟩

theorem SameNumber.trans {x y z : Float} (h : SameNumber x y) (h' : SameNumber y z) :
    SameNumber x z := by
  rw [← beq_iff_sameNumber] at h h' ⊢
  exact PartialEquivBEq.trans h h'

namespace Scalar

inductive Equal : Scalar → Scalar → Prop where
  | null : Equal null null
  | bool (b : Bool) : Equal (bool b) (bool b)
  | int (i : Int64) : Equal (int i) (int i)
  | float {x y : Float} (number : SameNumber x y) : Equal (float x) (float y)
  | text (s : String) : Equal (text s) (text s)

variable {a b c : Scalar}

theorem Equal.symm (h : a.Equal b) : b.Equal a := by
  cases h with
  | float number => exact .float number.symm
  | null => exact .null
  | bool => exact .bool _
  | int => exact .int _
  | text => exact .text _

theorem Equal.trans (h : a.Equal b) (h' : b.Equal c) : a.Equal c := by
  cases h with
  | float number =>
    cases h' with
    | float number' => exact .float (number.trans number')
  | null | bool | int | text => exact h'

theorem same_iff : a.same b = true ↔ a.Equal b := by
  constructor
  · intro h
    cases a <;> cases b <;> simp [same] at h
    · exact .null
    · exact h ▸ .bool _
    · exact h ▸ .int _
    · exact .float (beq_iff_sameNumber.mp h)
    · exact h ▸ .text _
  · intro h
    cases h with
    | float number => exact beq_iff_sameNumber.mpr number
    | null | bool | int | text => simp [same]

theorem equal_refl (h : ∀ x, a.float? = some x → x.isNaN = false) : a.Equal a := by
  cases a with
  | float x => exact .float (.refl (h x rfl))
  | null => exact .null
  | bool => exact .bool _
  | int => exact .int _
  | text => exact .text _

end Scalar

section Containers

variable {α : Type} {R : α → α → Prop} {as bs cs : List α}

theorem forall₂_symm (hR : ∀ a ∈ as, ∀ b, R a b → R b a) (h : List.Forall₂ R as bs) :
    List.Forall₂ R bs as := by
  induction h with
  | nil => exact .nil
  | cons head _ ih =>
    rw [List.forall_mem_cons] at hR
    exact .cons (hR.1 _ head) (ih hR.2)

theorem forall₂_trans (hR : ∀ a ∈ as, ∀ b c, R a b → R b c → R a c) (h : List.Forall₂ R as bs)
    (h' : List.Forall₂ R bs cs) : List.Forall₂ R as cs := by
  induction h generalizing cs with
  | nil => exact h'
  | cons head _ ih =>
    cases h' with
    | cons head' tail' =>
      rw [List.forall_mem_cons] at hR
      exact .cons (hR.1 _ _ head head') (ih hR.2 tail')

theorem rel_symm {x y : Option α} (hR : ∀ {a b}, R a b → R b a) (h : Option.Rel R x y) :
    Option.Rel R y x := by
  cases h with
  | some hab => exact .some (hR hab)
  | none => exact .none

theorem rel_trans {x y z : Option α} (hR : ∀ {a b c}, R a b → R b c → R a c)
    (h : Option.Rel R x y) (h' : Option.Rel R y z) : Option.Rel R x z := by
  cases h with
  | some hab =>
    cases h' with
    | some hbc => exact .some (hR hab hbc)
  | none => exact h'

/-- Lists are compared one by one if they are equally long. -/
theorem zip_all_iff (eq : α → α → Bool) (hR : ∀ a b, eq a b = true ↔ R a b) :
    (as.length == bs.length && (as.zip bs).all fun (a, b) => eq a b) = true ↔
      List.Forall₂ R as bs := by
  simp only [List.forall₂_iff_zip, Bool.and_eq_true, beq_iff_eq, List.all_eq_true, Prod.forall, hR]

end Containers

namespace Operand

/-- The same form, and scalars that are equal one by one. -/
inductive Equal : Operand → Operand → Prop where
  | scalar {a b : Scalar} (value : a.Equal b) : Equal (scalar a) (scalar b)
  | list {as bs : List Scalar} (values : List.Forall₂ Scalar.Equal as bs) :
      Equal (list as) (list bs)

variable {o o' o'' : Operand}

theorem Equal.symm (h : o.Equal o') : o'.Equal o := by
  cases h with
  | scalar value => exact .scalar value.symm
  | list values => exact .list (forall₂_symm (fun _ _ _ hab => hab.symm) values)

theorem Equal.trans (h : o.Equal o') (h' : o'.Equal o'') : o.Equal o'' := by
  cases h with
  | scalar value =>
    cases h' with
    | scalar value' => exact .scalar (value.trans value')
  | list values =>
    cases h' with
    | list values' => exact .list (forall₂_trans (fun _ _ _ _ hab => hab.trans) values values')

theorem same_iff : o.same o' = true ↔ o.Equal o' := by
  have hlists : ∀ as bs, (list as).same (list bs) = true ↔ List.Forall₂ Scalar.Equal as bs :=
    fun _ _ => zip_all_iff Scalar.same fun _ _ => Scalar.same_iff
  constructor
  · intro h
    cases o <;> cases o' <;> try cases h
    · exact .scalar (Scalar.same_iff.mp h)
    · exact .list ((hlists _ _).mp h)
  · intro h
    cases h with
    | scalar value => exact Scalar.same_iff.mpr value
    | list values => exact (hlists _ _).mpr values

end Operand

namespace Predicate

/-- The same operator and field, and equal operands. -/
@[mk_iff]
structure Equal (p q : Predicate) : Prop where
  operator_eq : p.operator = q.operator
  field_eq : p.field = q.field
  operand : p.operand.Equal q.operand

/-- No NaN is among the numbers of the operand. -/
def NanFree (p : Predicate) : Prop := ∀ x ∈ p.floats, x.isNaN = false

variable {p q r : Predicate}

theorem Equal.symm (h : p.Equal q) : q.Equal p :=
  ⟨h.operator_eq.symm, h.field_eq.symm, h.operand.symm⟩

theorem Equal.trans (h : p.Equal q) (h' : q.Equal r) : p.Equal r :=
  ⟨h.operator_eq.trans h'.operator_eq, h.field_eq.trans h'.field_eq, h.operand.trans h'.operand⟩

theorem same_iff : p.same q = true ↔ p.Equal q := by
  simp [same, equal_iff, Operand.same_iff, and_assoc]

theorem NanFree.equal_self (h : p.NanFree) : p.Equal p := by
  refine ⟨rfl, rfl, ?_⟩
  have hscalars : ∀ a ∈ p.operand.scalars, a.Equal a := by
    intro a ha
    exact Scalar.equal_refl fun x hx => h x (List.mem_filterMap.mpr ⟨a, ha, hx⟩)
  cases hoperand : p.operand with
  | scalar a => exact .scalar (hscalars a (by simp [hoperand, Operand.scalars]))
  | list as =>
    refine .list (List.forall₂_same.mpr fun a ha => hscalars a ?_)
    rwa [hoperand, Operand.scalars]

end Predicate

namespace Condition

/-- What holds of a group if it holds of the children holds of all trees. -/
@[elab_as_elim]
theorem inductOn {P : Condition → Prop} (leaf : ∀ p, P (leaf p))
    (group : ∀ c ts, (∀ t ∈ ts, P t) → P (group c ts)) (t : Condition) : P t :=
  @Condition.rec P (fun ts => ∀ t ∈ ts, P t) leaf group (by simp)
    (fun _ _ ht hts => List.forall_mem_cons.mpr ⟨ht, hts⟩) t

/-- Equal predicates in groups of the same form. -/
inductive Equal : Condition → Condition → Prop where
  | leaf {p q : Predicate} (predicate : p.Equal q) : Equal (leaf p) (leaf q)
  | group (c : Connective) {ts us : List Condition} (children : List.Forall₂ Equal ts us) :
      Equal (group c ts) (group c us)

def NanFree (t : Condition) : Prop := ∀ p ∈ t.leaves, p.NanFree

variable {t u v : Condition}

theorem Equal.symm (h : t.Equal u) : u.Equal t := by
  induction t using inductOn generalizing u with
  | leaf p =>
    cases h with
    | leaf predicate => exact .leaf predicate.symm
  | group c ts ih =>
    cases h with
    | group _ children => exact .group c (forall₂_symm (fun t ht _ => ih t ht) children)

theorem Equal.trans (h : t.Equal u) (h' : u.Equal v) : t.Equal v := by
  induction t using inductOn generalizing u v with
  | leaf p =>
    cases h with
    | leaf predicate =>
      cases h' with
      | leaf predicate' => exact .leaf (predicate.trans predicate')
  | group c ts ih =>
    cases h with
    | group _ children =>
      cases h' with
      | group _ children' =>
        exact .group c (forall₂_trans (fun t ht _ _ => ih t ht) children children')

theorem sames_iff {ts us : List Condition}
    (ih : ∀ t ∈ ts, ∀ u, t.same u = true ↔ t.Equal u) :
    sames ts us = true ↔ List.Forall₂ Equal ts us := by
  induction ts generalizing us with
  | nil => cases us <;> simp [sames]
  | cons t ts ihs =>
    rw [List.forall_mem_cons] at ih
    cases us with
    | nil => simp [sames]
    | cons u us => rw [sames, Bool.and_eq_true, ih.1 u, ihs ih.2, List.forall₂_cons]

/-- Trees are compared node by node, so equal ones are found the same. -/
theorem same_iff : t.same u = true ↔ t.Equal u := by
  induction t using inductOn generalizing u with
  | leaf p =>
    constructor
    · intro h
      cases u with
      | leaf q => exact .leaf (Predicate.same_iff.mp h)
      | group => cases h
    · intro h
      cases h with
      | leaf predicate => exact Predicate.same_iff.mpr predicate
  | group c ts ih =>
    have hchildren : ∀ us, sames ts us = true ↔ List.Forall₂ Equal ts us :=
      fun _ => sames_iff fun t ht _ => ih t ht
    constructor
    · intro h
      cases u with
      | leaf => cases h
      | group d us =>
        rw [same, Bool.and_eq_true, beq_iff_eq, hchildren] at h
        obtain ⟨rfl, children⟩ := h
        exact .group c children
    · intro h
      cases h with
      | group _ children => simp [same, (hchildren _).mpr children]

theorem nanFree_group {c : Connective} {ts : List Condition} :
    (group c ts).NanFree ↔ ∀ t ∈ ts, t.NanFree := by
  rw [NanFree, leaves]
  induction ts with
  | nil => simp [leavesOfAll]
  | cons t ts ih => rw [leavesOfAll, List.forall_mem_append, ih, List.forall_mem_cons, NanFree]

theorem NanFree.equal_self (h : t.NanFree) : t.Equal t := by
  induction t using inductOn with
  | leaf p => exact .leaf (h p (by simp [leaves])).equal_self
  | group c ts ih =>
    rw [nanFree_group] at h
    exact .group c (List.forall₂_same.mpr fun t ht => ih t ht (h t ht))

theorem NanFree.same_self (h : t.NanFree) : t.same t = true := same_iff.mpr h.equal_self

end Condition

namespace Store

/-- No NaN is in the store. -/
def NanFree (s : Store) : Prop := ∀ h p, s.get? h = some (.leaf p) → p.NanFree

mutual

theorem Stands.nanFree {s : Store} (hs : s.NanFree) {h : Handle} {t : Condition}
    (ht : Stands s h t) : t.NanFree := by
  cases ht with
  | leaf node =>
    intro p hp
    cases List.mem_singleton.mp hp
    exact hs _ _ node
  | group _ children => exact Condition.nanFree_group.mpr (AllStand.nanFree hs children)

theorem AllStand.nanFree {s : Store} (hs : s.NanFree) {as : List Handle} {ts : List Condition}
    (hts : AllStand s as ts) : ∀ t ∈ ts, t.NanFree := by
  cases hts with
  | nil => simp
  | cons head tail =>
    exact List.forall_mem_cons.mpr ⟨Stands.nanFree hs head, AllStand.nanFree hs tail⟩

end

theorem pairwise_cons (eq : Handle → Handle → Bool) (a b : Handle) (as bs : List Handle) :
    pairwise eq (a :: as) (b :: bs) = (eq a b && pairwise eq as bs) := by
  simp [pairwise, Bool.and_left_comm]

mutual

/-- Handles are compared as the trees are that they stand for. The shortcut is taken where these are
one tree, and a tree without NaN is the same as itself. -/
theorem Stands.sameWithin_eq {s : Store} {a b : Handle} {t u : Condition} (ha : Stands s a t)
    (hb : Stands s b u) (ht : t.NanFree) {levels : Nat} (hlevels : t.depth ≤ levels) :
    s.sameWithin levels a b = t.same u := by
  cases levels with
  | zero => cases t <;> simp [Condition.depth] at hlevels
  | succ levels =>
    by_cases hab : a = b
    · subst hab
      rw [ha.unique hb] at ht ⊢
      simp [sameWithin, ht.same_self]
    · have hshortcut : (a == b) = false := by simpa using hab
      rw [sameWithin, hshortcut, Bool.false_or]
      cases ha with
      | leaf node =>
        cases hb with
        | leaf node' => simp only [node, node', Condition.same]
        | group node' _ => simp only [node, node', Condition.same]
      | @group _ _ _ ts node children =>
        cases hb with
        | leaf node' => simp only [node, node', Condition.same]
        | group node' children' =>
          have hts : Condition.depths ts ≤ levels := by
            simp only [Condition.depth] at hlevels
            omega
          rw [Condition.nanFree_group] at ht
          simp only [node, node', Condition.same, AllStand.pairwise_eq children children' ht hts]

theorem AllStand.pairwise_eq {s : Store} {as bs : List Handle} {ts us : List Condition}
    (has : AllStand s as ts) (hbs : AllStand s bs us) (hts : ∀ t ∈ ts, t.NanFree) {levels : Nat}
    (hlevels : Condition.depths ts ≤ levels) :
    pairwise (s.sameWithin levels) as bs = Condition.sames ts us := by
  cases has with
  | nil => cases hbs <;> simp [pairwise, Condition.sames]
  | cons head tail =>
    cases hbs with
    | nil => simp [pairwise, Condition.sames]
    | cons head' tail' =>
      rw [List.forall_mem_cons] at hts
      rw [Condition.depths, Nat.max_le] at hlevels
      rw [pairwise_cons, Condition.sames, Stands.sameWithin_eq head head' hts.1 hlevels.1,
        AllStand.pairwise_eq tail tail' hts.2 hlevels.2]

end

theorem Stands.same_eq {s : Store} {a b : Handle} {t u : Condition} (ha : Stands s a t)
    (hb : Stands s b u) (ht : t.NanFree) : s.same a b = t.same u :=
  ha.sameWithin_eq hb ht ha.depth_le_size

/-- A copy is behind a handle of its own, so finding it the same takes looking at all of it. -/
theorem Stands.same_copy {s : Store} {h : Handle} {t : Condition} (ht : Stands s h t)
    (hnumbers : t.NanFree) :
    (build t s).1 ∉ s ∧ (build t s).2.same h (build t s).1 = true := by
  constructor
  · exact Nat.not_lt_of_le (laid_build t (.refl _)).le
  · rw [((keeps_build t s).stands ht).same_eq (stands_build t s) hnumbers, hnumbers.same_self]

end Store

namespace Spec

/-- Equal trees or none, and the same order and page. -/
@[mk_iff]
structure Equal (a b : Spec Condition) : Prop where
  root : Option.Rel Condition.Equal a.root b.root
  sorts_eq : a.sorts = b.sorts
  offset_eq : a.offset = b.offset
  limit_eq : a.limit = b.limit

variable {a b c : Spec Condition}

theorem Equal.symm (h : a.Equal b) : b.Equal a :=
  ⟨rel_symm .symm h.root, h.sorts_eq.symm, h.offset_eq.symm, h.limit_eq.symm⟩

theorem Equal.trans (h : a.Equal b) (h' : b.Equal c) : a.Equal c :=
  ⟨rel_trans .trans h.root h'.root, h.sorts_eq.trans h'.sorts_eq, h.offset_eq.trans h'.offset_eq,
    h.limit_eq.trans h'.limit_eq⟩

theorem equal_self (h : ∀ t ∈ a.root, t.NanFree) : a.Equal a := by
  refine ⟨?_, rfl, rfl, rfl⟩
  cases hroot : a.root with
  | none => exact .none
  | some t => exact .some (h t hroot).equal_self

theorem same_iff : Spec.same Condition.same a b = true ↔ a.Equal b := by
  obtain ⟨root, sorts, offset, limit⟩ := a
  obtain ⟨root', sorts', offset', limit'⟩ := b
  rw [equal_iff]
  cases root <;> cases root' <;> simp [Spec.same, Condition.same_iff, and_assoc]

end Spec

/-- Specs on shared nodes are compared as the trees are that their roots stand for. -/
theorem SharedSpec.same_eq {s : Store} {a b : SharedSpec} {t u : Option Condition}
    (ha : Option.Rel (Store.Stands s) a.root t) (hb : Option.Rel (Store.Stands s) b.root u)
    (ht : ∀ x ∈ t, x.NanFree) :
    a.same b s = Spec.same Condition.same (a.withRoot t) (b.withRoot u) := by
  obtain ⟨root, sorts, offset, limit⟩ := a
  obtain ⟨root', sorts', offset', limit'⟩ := b
  cases ha with
  | none => cases hb <;> rfl
  | some hstands =>
    cases hb with
    | none => rfl
    | some hstands' =>
      have hroots := hstands.same_eq hstands' (ht _ rfl)
      simp only [SharedSpec.same, Spec.same, Spec.withRoot, hroots]

namespace Store

theorem rel_stands_nanFree {s : Store} (hs : s.NanFree) {root : Option Handle}
    {t : Option Condition} (ht : Option.Rel (Stands s) root t) : ∀ x ∈ t, x.NanFree := by
  cases ht with
  | none => simp
  | some hstands =>
    intro x hx
    cases hx
    exact hstands.nanFree hs

/-- What is compared as other things are under an equivalence is compared by an equivalence. -/
theorem equivalence_of_iff {α β : Type} {r : α → α → Prop} {E : β → β → Prop} (f : α → β)
    (hr : ∀ a b, r a b ↔ E (f a) (f b)) (hrefl : ∀ a, E (f a) (f a))
    (hsymm : ∀ {x y}, E x y → E y x) (htrans : ∀ {x y z}, E x y → E y z → E x z) :
    Equivalence r where
  refl a := (hr a a).mpr (hrefl a)
  symm h := (hr _ _).mpr (hsymm ((hr _ _).mp h))
  trans h h' := (hr _ _).mpr (htrans ((hr _ _).mp h) ((hr _ _).mp h'))

/-- The trees that the handles of a store stand for are equal where the handles are the same. -/
theorem Sound.exists_trees {s : Store} (hs : s.Sound) (hnumbers : s.NanFree) :
    ∃ tree : { h : Handle // h ∈ s } → Condition,
      (∀ a, Stands s a.val (tree a) ∧ (tree a).NanFree) ∧
      ∀ a b, s.same a.val b.val = true ↔ (tree a).Equal (tree b) := by
  have hstands : ∀ a : { h : Handle // h ∈ s }, ∃ t, Stands s a.val t :=
    fun a => hs.exists_stands a.property
  choose tree htree using hstands
  have hnanFree : ∀ a, (tree a).NanFree := fun a => (htree a).nanFree hnumbers
  refine ⟨tree, fun a => ⟨htree a, hnanFree a⟩, fun a b => ?_⟩
  rw [(htree a).same_eq (htree b) (hnanFree a), Condition.same_iff]

/-- The specs with the trees that specs on a store stand for are equal where these are the same. -/
theorem Sound.exists_specs {s : Store} (hs : s.Sound) (hnumbers : s.NanFree) :
    ∃ tree : { a : SharedSpec // ∀ h ∈ a.root, h ∈ s } → Spec Condition,
      (∀ a, a.val.unfold s = some (tree a) ∧ (tree a).Equal (tree a)) ∧
      ∀ a b, a.val.same b.val s = true ↔ (tree a).Equal (tree b) := by
  have hstands : ∀ a : { a : SharedSpec // ∀ h ∈ a.root, h ∈ s },
      ∃ t, Option.Rel (Stands s) a.val.root t := fun a => hs.exists_rel_stands a.property
  choose root hroot using hstands
  have hnanFree : ∀ a, ∀ t ∈ root a, t.NanFree := fun a => rel_stands_nanFree hnumbers (hroot a)
  refine ⟨fun a => a.val.withRoot (root a), fun a => ⟨SharedSpec.unfold_eq (hroot a), ?_⟩,
    fun a b => ?_⟩
  · exact Spec.equal_self (hnanFree a)
  · rw [SharedSpec.same_eq (hroot a) (hroot b) (hnanFree a), Spec.same_iff]

/-- Comparing shared nodes is comparing the trees that they stand for. So it is an equivalence, and
what is copied is the same as its copy, on the same nodes or on nodes of its own. -/
theorem Sound.same_iff_equal {s : Store} (hs : s.Sound) (hnumbers : s.NanFree) :
    (∀ a ∈ s, ∀ b ∈ s, ∃ t u, s.unfold a = some t ∧ s.unfold b = some u ∧
      s.same a b = t.same u ∧ (s.same a b = true ↔ t.Equal u)) ∧
    (∀ a b : SharedSpec, (∀ h ∈ a.root, h ∈ s) → (∀ h ∈ b.root, h ∈ s) →
      ∃ t u, a.unfold s = some t ∧ b.unfold s = some u ∧ (a.same b s = true ↔ t.Equal u)) ∧
    Equivalence (fun a b : { h : Handle // h ∈ s } => s.same a.val b.val = true) ∧
    Equivalence (fun a b : { a : SharedSpec // ∀ h ∈ a.root, h ∈ s } =>
      a.val.same b.val s = true) ∧
    (∀ a ∈ s, s.same a a = true ∧
      ∃ copy s', s.copy a = some (copy, s') ∧ copy ∉ s ∧ s'.same a copy = true) ∧
    ∀ a : SharedSpec, (∀ h ∈ a.root, h ∈ s) → a.same a s = true ∧
      ∃ copied s', a.deepCopy s = some (copied, s') ∧ a.same copied s' = true := by
  obtain ⟨tree, htree, hsame⟩ := hs.exists_trees hnumbers
  obtain ⟨spec, hspec, hsameSpec⟩ := hs.exists_specs hnumbers
  have hequiv := equivalence_of_iff tree hsame (fun a => (htree a).2.equal_self) .symm .trans
  have hequivSpec := equivalence_of_iff spec hsameSpec (fun a => (hspec a).2) .symm .trans
  refine ⟨?_, ?_, hequiv, hequivSpec, ?_, ?_⟩
  · intro a ha b hb
    obtain ⟨hstands, hnanFree⟩ := htree ⟨a, ha⟩
    have hstands' := (htree ⟨b, hb⟩).1
    exact ⟨_, _, hstands.unfold_eq, hstands'.unfold_eq, hstands.same_eq hstands' hnanFree,
      hsame ⟨a, ha⟩ ⟨b, hb⟩⟩
  · intro a b ha hb
    exact ⟨_, _, (hspec ⟨a, ha⟩).1, (hspec ⟨b, hb⟩).1, hsameSpec ⟨a, ha⟩ ⟨b, hb⟩⟩
  · intro a ha
    obtain ⟨hstands, hnanFree⟩ := htree ⟨a, ha⟩
    exact ⟨hequiv.refl ⟨a, ha⟩, _, _, copy_eq hstands, hstands.same_copy hnanFree⟩
  · intro a ha
    refine ⟨hequivSpec.refl ⟨a, ha⟩, ?_⟩
    cases hroot : a.root with
    | none => exact ⟨a, s, by rw [SharedSpec.deepCopy, hroot], hequivSpec.refl ⟨a, ha⟩⟩
    | some h =>
      obtain ⟨hstands, hnanFree⟩ := htree ⟨h, ha h hroot⟩
      have hcopy := (hstands.same_copy hnanFree).2
      refine ⟨_, _, deepCopy_eq hroot hstands, ?_⟩
      simp [SharedSpec.same, Spec.same, Spec.withRoot, hroot, hcopy]

/-- What is no number differs from itself, which the shortcut does not see. -/
example : (⟨#[.leaf ⟨.equal, "a", .scalar (.float Float.nan)⟩]⟩ : Store).same ⟨0⟩ ⟨0⟩ = true ∧
    Predicate.same ⟨.equal, "a", .scalar (.float Float.nan)⟩
      ⟨.equal, "a", .scalar (.float Float.nan)⟩ = false := by decide +kernel

theorem nanFree_of_forall {s : Store} (h : ∀ n ∈ s.nodes, ∀ p, n = .leaf p → p.NanFree) :
    s.NanFree := fun _ p hn => h _ (Array.mem_of_getElem? hn) p rfl

/-- Two roots, over a group that holds one leaf twice and over a group of two leaves. The leaves
differ in the sign of a zero. -/
def zeros : Store :=
  ⟨#[.leaf ⟨.equal, "a", .list [.float 0]⟩, .leaf ⟨.equal, "a", .list [.float (-0)]⟩,
    .group .and [⟨0⟩, ⟨0⟩], .group .and [⟨1⟩, ⟨0⟩], .group .or [⟨2⟩, ⟨3⟩, ⟨2⟩],
    .group .or [⟨3⟩, ⟨3⟩, ⟨2⟩]]⟩

theorem sound_zeros : zeros.Sound := sound_of_descends (by decide)

theorem nanFree_zeros : zeros.NanFree := by
  refine nanFree_of_forall fun n hn p hp => ?_
  subst hp
  have hfloats : p.floats = [0] ∨ p.floats = [-0] := by
    simp only [zeros, List.mem_toArray, List.mem_cons, Node.leaf.injEq, reduceCtorEq,
      List.not_mem_nil, or_false] at hn
    exact hn.imp (congrArg Predicate.floats) (congrArg Predicate.floats)
  rcases hfloats with h | h <;> simp [Predicate.NanFree, h, zero_ne_nan, neg_zero_ne_nan]

/-- The roots are two nodes, but they stand for equal trees. -/
theorem same_iff_equal_zeros :
    zeros.Sound ∧ zeros.NanFree ∧ zeros.same ⟨4⟩ ⟨5⟩ = true ∧ zeros.same ⟨2⟩ ⟨4⟩ = false ∧
      (∃ t u, zeros.unfold ⟨4⟩ = some t ∧ zeros.unfold ⟨5⟩ = some u ∧ t.Equal u) ∧
      ∃ copy s', zeros.copy ⟨4⟩ = some (copy, s') ∧ s'.same ⟨4⟩ copy = true := by
  obtain ⟨hhandles, -, -, -, hcopies, -⟩ := sound_zeros.same_iff_equal nanFree_zeros
  have hfour : (⟨4⟩ : Handle) ∈ zeros := by decide
  have hsame : zeros.same ⟨4⟩ ⟨5⟩ = true := by decide +kernel
  obtain ⟨t, u, ht, hu, -, hiff⟩ := hhandles ⟨4⟩ hfour ⟨5⟩ (by decide)
  obtain ⟨-, copy, s', hcopy, -, hsame'⟩ := hcopies ⟨4⟩ hfour
  exact ⟨sound_zeros, nanFree_zeros, hsame, by decide +kernel, ⟨t, u, ht, hu, hiff.mp hsame⟩,
    copy, s', hcopy, hsame'⟩

end Store

end FilterQuery
