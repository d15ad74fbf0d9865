import FilterQuery.Proofs.Decode.Value
import Mathlib.Logic.Relation

/-!
# Rearranged documents

A document is rearranged by letting two members of an object change places, or by using another of
the names that a key has. What a spec says does not change with that.
-/
namespace FilterQuery.Grammar

/-- What stands at a place of a spec. -/
inductive Place where
  | spec
  | node
  | nodes
  | sortKey
  | sortKeys
  | value
  deriving DecidableEq

namespace Place

/-- The keys of a record in their order. -/
def keys : Place → List String
  | spec => ["root", "sorts", "offset", "limit"]
  | node => nodeKeys
  | sortKey => ["field", "direction"]
  | _ => []

/-- The names of the keys that have several. -/
def aliases : Place → List (List String)
  | node => [childNames]
  | sortKey => [["field", "sort"], ["direction", "dir"]]
  | _ => []

/-- The place under a key of a record. -/
def member : Place → String → Place
  | spec, key => if key = "root" then node else if key = "sorts" then sortKeys else value
  | node, key => if key ∈ childNames then nodes else value
  | _, _ => value

/-- The place of an item of an array. -/
def item : Place → Nat → Place
  | nodes, _ => node
  | sortKeys, _ => sortKey
  | p, i => match p.keys[i]? with
    | some key => p.member key
    | none => value

end Place

theorem Place.item_eq {p : Place} {i : Nat} {key : String} (h : p.keys[i]? = some key) :
    p.item i = p.member key := by
  cases p with
  | nodes => cases h
  | sortKeys => cases h
  | _ =>
    rw [item]
    simp only [h]
    all_goals simp

/-- One rearrangement, at the place `p` or below it. -/
inductive Rearranged : Place → Json → Json → Prop where
  | swap {p : Place} (before : Members) (m n : Option String × Json) (after : Members)
      (closed : Bool) : Rearranged p (.object (before ++ m :: n :: after) closed)
        (.object (before ++ n :: m :: after) closed)
  | rename {p : Place} {names : List String} {key other : String} (before : Members) (v : Json)
      (after : Members) (closed : Bool) (known : names ∈ p.aliases) (old : key ∈ names)
      (new : other ∈ names) : Rearranged p (.object (before ++ (some key, v) :: after) closed)
        (.object (before ++ (some other, v) :: after) closed)
  | member {p : Place} {key : String} {v w : Json} (before after : Members) (closed : Bool)
      (inner : Rearranged (p.member key) v w) :
      Rearranged p (.object (before ++ (some key, v) :: after) closed)
        (.object (before ++ (some key, w) :: after) closed)
  | item {p : Place} {v w : Json} (before after : List Json)
      (inner : Rearranged (p.item before.length) v w) :
      Rearranged p (.array (before ++ v :: after)) (.array (before ++ w :: after))

theorem eq_of_append_cons_eq_singleton {α : Type} {before after : List α} {x y : α}
    (h : before ++ x :: after = [y]) : before = [] ∧ after = [] ∧ x = y := by
  cases before with
  | nil =>
    obtain ⟨hxy, hafter⟩ := List.cons.inj h
    exact ⟨rfl, hafter, hxy⟩
  | cons b before =>
    obtain ⟨_, hrest⟩ := List.cons.inj h
    simp at hrest

/-- One item more or less does not matter if it stands for the same. -/
theorem forall₂_replace {α β : Type} {R : α → β → Prop} {x y : α}
    (hxy : ∀ b, R x b → R y b) {before after : List α} {bs : List β}
    (h : List.Forall₂ R (before ++ x :: after) bs) : List.Forall₂ R (before ++ y :: after) bs := by
  induction before generalizing bs with
  | nil =>
    obtain ⟨b, bs, hb, hbs, rfl⟩ := List.forall₂_cons_left_iff.mp h
    exact .cons (hxy b hb) hbs
  | cons a before ih =>
    obtain ⟨b, bs, hb, hbs, rfl⟩ := List.forall₂_cons_left_iff.mp h
    exact .cons hb (ih hbs)

namespace Rearranged

theorem symm {p : Place} {v w : Json} (h : Rearranged p v w) : Rearranged p w v := by
  induction h with
  | swap before m n after closed => exact .swap before n m after closed
  | rename before v after closed known old new => exact .rename before v after closed known new old
  | member before after closed _ ih => exact .member before after closed ih
  | item before after _ ih => exact .item before after ih

/-- A rearranged document has room for as much as before. -/
theorem fits_eq {p : Place} {v w : Json} (h : Rearranged p v w) (room : Nat) :
    v.fits room = w.fits room := by
  induction h generalizing room with
  | swap before m n after closed =>
    cases room with
    | zero => rfl
    | succ room => simp [Json.fits, Bool.and_left_comm]
  | rename before v after closed =>
    cases room with
    | zero => rfl
    | succ room => simp [Json.fits]
  | member before after closed _ ih =>
    cases room with
    | zero => rfl
    | succ room => simp [Json.fits, ih room]
  | item before after _ ih =>
    cases room with
    | zero => rfl
    | succ room => simp [Json.fits, ih room]

theorem ne_null {p : Place} {v w : Json} (h : Rearranged p v w) : v ≠ .null := by
  rintro rfl
  cases h

theorem not_scalar {p : Place} {v w : Json} (h : Rearranged p v w) {a : Scalar} :
    ¬ OfScalar v a := by
  intro hv
  cases h <;> cases hv

/-- What means a value of some kind. -/
inductive Valued : Json → Prop where
  | text {v : Json} {s : String} (means : OfText v s) : Valued v
  | count {v : Json} {n : UInt64} (means : OfCount v n) : Valued v
  | operator {v : Json} {o : Operator} (means : OfOperator v o) : Valued v
  | connective {v : Json} {c : Connective} (means : OfConnective v c) : Valued v
  | direction {v : Json} {d : Direction} (means : OfDirection v d) : Valued v
  | operand {v : Json} {o : Operand} (means : OfOperand v o) : Valued v

theorem not_variant {α : Type} {known : List (String × α)} {v w : Json}
    (h : Rearranged .value v w) {a : α} : ¬ OfVariant known v a := by
  have hobject : ∀ {ms : Members} {closed : Bool}, OfVariant known (.object ms closed) a →
      ∃ s, ms = [(some s, .null)] := by
    rintro ms closed ⟨⟩
    exact ⟨_, rfl⟩
  intro hv
  cases h with
  | swap before m n after closed =>
    obtain ⟨s, hms⟩ := hobject hv
    have hlength := congrArg List.length hms
    simp at hlength
    omega
  | rename before v after closed known => cases known
  | member before after closed inner =>
    obtain ⟨s, hms⟩ := hobject hv
    obtain ⟨rfl, rfl, hmember⟩ := eq_of_append_cons_eq_singleton hms
    obtain ⟨_, rfl⟩ := Prod.mk.inj hmember
    exact inner.ne_null rfl
  | item before after inner => cases hv

theorem not_operand {v w : Json} (h : Rearranged .value v w) {o : Operand} : ¬ OfOperand v o := by
  rintro (hscalar | hitems)
  · exact h.not_scalar hscalar
  · cases h with
    | item before after inner =>
      obtain ⟨a, -, ha⟩ :=
        Decode.exists_of_forall₂ hitems (List.mem_append_right before List.mem_cons_self)
      exact inner.not_scalar ha

theorem not_valued {v w : Json} (h : Rearranged .value v w) : ¬ Valued v := by
  rintro (hv | hv | hv | hv | hv | hv)
  · cases hv
    cases h
  · cases hv
    cases h
  · cases hv <;> cases h
  · exact h.not_variant hv
  · exact h.not_variant hv
  · exact h.not_operand hv

end Rearranged

/-- What `v` says at a place is said by `w` too. -/
def Place.Passes : Place → Json → Json → Prop
  | spec, v, w => ∀ s, OfSpec v s → OfSpec w s
  | node, v, w => ∀ c, OfNode v c → OfNode w c
  | nodes, v, w => ∀ cs, OfNodes v cs → OfNodes w cs
  | sortKey, v, w => ∀ k, OfSort v k → OfSort w k
  | sortKeys, v, w => ∀ ks, OfSorts v ks → OfSorts w ks
  | value, v, _ => ¬ Rearranged.Valued v

/-- One rearrangement of the members of a record. -/
inductive Shifted (p : Place) : Members → Members → Prop where
  | swap (before : Members) (m n : Option String × Json) (after : Members) :
      Shifted p (before ++ m :: n :: after) (before ++ n :: m :: after)
  | rename {names : List String} {key other : String} (before : Members) (v : Json)
      (after : Members) (known : names ∈ p.aliases) (old : key ∈ names) (new : other ∈ names) :
      Shifted p (before ++ (some key, v) :: after) (before ++ (some other, v) :: after)
  | member {key : String} {v w : Json} (before after : Members) (hv : v ≠ .null) (hw : w ≠ .null)
      (passes : (p.member key).Passes v w) :
      Shifted p (before ++ (some key, v) :: after) (before ++ (some key, w) :: after)

theorem under_append (names : List String) (ms ns : Members) :
    under names (ms ++ ns) = under names ms ++ under names ns := List.filterMap_append

/-- The names are all of those of a key, or of several, under which stands the place `q`. -/
def Place.Holds (p : Place) (names : List String) (q : Place) : Prop :=
  (∀ group ∈ p.aliases, ∀ key ∈ group, ∀ other ∈ group, key ∈ names → other ∈ names) ∧
    ∀ key ∈ names, p.member key = q

instance (p : Place) (names : List String) (q : Place) : Decidable (p.Holds names q) :=
  inferInstanceAs (Decidable (_ ∧ _))

namespace Shifted

variable {p q : Place} {ms ns : Members} {names : List String}

/-- What stands under a key is the same, but for the order of several values and for one that is
rearranged itself. -/
theorem under (h : Shifted p ms ns) (hnames : p.Holds names q) :
    (under names ms).Perm (under names ns) ∨
      ∃ before after v w, under names ms = before ++ v :: after ∧
        under names ns = before ++ w :: after ∧ v ≠ .null ∧ w ≠ .null ∧ q.Passes v w := by
  cases h with
  | swap before m n after =>
    refine .inl (List.Perm.filterMap _ ?_)
    exact (List.Perm.swap n m after).append_left before
  | @rename group key other before v after known old new =>
    refine .inl (.of_eq ?_)
    by_cases hkey : key ∈ names
    · have hother := hnames.1 group known key old other new hkey
      simp only [under_append, under_cons_of_mem hkey, under_cons_of_mem hother]
    · have hother : other ∉ names := fun h => hkey (hnames.1 group known other new key old h)
      simp only [under_append, under_cons_of_not_mem hkey, under_cons_of_not_mem hother]
  | @member key v w before after hv hw passes =>
    by_cases hkey : key ∈ names
    · refine .inr ⟨Grammar.under names before, Grammar.under names after, v, w, ?_, ?_, hv, hw,
        hnames.2 key hkey ▸ passes⟩
      · rw [under_append, under_cons_of_mem hkey]
      · rw [under_append, under_cons_of_mem hkey]
    · refine .inl (.of_eq ?_)
      simp only [under_append, under_cons_of_not_mem hkey]

variable {α : Type} {Means : Json → α → Prop}

theorem eq_nil (h : Shifted p ms ns) (hnames : p.Holds names q)
    (hms : Grammar.under names ms = []) : Grammar.under names ns = [] := by
  rcases h.under hnames with hperm | ⟨before, after, v, w, hv, _⟩
  · rw [hms] at hperm
    exact hperm.symm.eq_nil
  · rw [hms] at hv
    simp at hv

theorem eq_singleton (h : Shifted p ms ns) (hnames : p.Holds names q) {v : Json}
    (hms : Grammar.under names ms = [v]) :
    Grammar.under names ns = [v] ∨ ∃ w, Grammar.under names ns = [w] ∧ v ≠ .null ∧ w ≠ .null ∧
      q.Passes v w := by
  rcases h.under hnames with hperm | ⟨before, after, x, w, hx, hw, hne, hne', hpasses⟩
  · rw [hms] at hperm
    exact .inl (List.perm_singleton.mp hperm.symm)
  · rw [hms] at hx
    obtain ⟨rfl, rfl, rfl⟩ := eq_of_append_cons_eq_singleton hx.symm
    exact .inr ⟨w, hw, hne, hne', hpasses⟩

theorem entry (h : Shifted p ms ns) (hnames : p.Holds names q)
    (hmeans : ∀ v w, q.Passes v w → ∀ a, Means v a → Means w a)
    {a : Option α} (hentry : Entry names Means ms a) : Entry names Means ns a := by
  cases hentry with
  | absent nothing => exact .absent (h.eq_nil hnames nothing)
  | given one means =>
    rcases h.eq_singleton hnames one with hns | ⟨w, hw, _, _, hpasses⟩
    · exact .given hns means
    · exact .given hw (hmeans _ _ hpasses _ means)

theorem nullable (h : Shifted p ms ns) (hnames : p.Holds names q)
    (hmeans : ∀ v w, q.Passes v w → ∀ a, Means v a → Means w a)
    {a : Option α} (hentry : Nullable names Means ms a) : Nullable names Means ns a := by
  cases hentry with
  | absent nothing => exact .absent (h.eq_nil hnames nothing)
  | null one =>
    rcases h.eq_singleton hnames one with hns | ⟨w, _, hne, _⟩
    · exact .null hns
    · exact absurd rfl hne
  | given one means =>
    rcases h.eq_singleton hnames one with hns | ⟨w, hw, _, _, hpasses⟩
    · exact .given hns means
    · exact .given hw (hmeans _ _ hpasses _ means)

end Shifted

/-- The members of the record `v` are shifted in `w`. -/
def Place.Shifts (p : Place) (v w : Json) : Prop :=
  ∀ least ms, Fields p.keys least v ms → ∃ ns, Fields p.keys least w ns ∧ Shifted p ms ns

theorem shifts_object {p : Place} {ms ns : Members} (h : Shifted p ms ns) (closed : Bool) :
    p.Shifts (.object ms closed) (.object ns closed) := by
  rintro least _ ⟨⟩
  exact ⟨ns, .object ns, h⟩

/-- An item of an array stands where a member under its key would. -/
theorem shifts_array {p : Place} {before after : List Json} {v w : Json} (hv : v ≠ .null)
    (hw : w ≠ .null)
    (hpasses : ∀ key, p.keys[before.length]? = some key → (p.member key).Passes v w) :
    p.Shifts (.array (before ++ v :: after)) (.array (before ++ w :: after)) := by
  rintro least _ (_ | ⟨enough, fit⟩)
  have hlt : before.length < p.keys.length := by
    simp only [List.length_append, List.length_cons] at fit
    omega
  have hkeys : p.keys = p.keys.take before.length ++
      p.keys[before.length] :: p.keys.drop (before.length + 1) := by
    rw [← List.drop_eq_getElem_cons hlt, List.take_append_drop]
  have hzip : ∀ x, (p.keys.map some).zip (before ++ x :: after) =
      ((p.keys.take before.length).map some).zip before ++ (some p.keys[before.length], x) ::
        ((p.keys.drop (before.length + 1)).map some).zip after := by
    intro x
    have hlength : ((p.keys.take before.length).map some).length = before.length := by
      rw [List.length_map, List.length_take]
      omega
    conv_lhs => rw [hkeys, List.map_append, List.map_cons, List.zip_append hlength]
    rfl
  refine ⟨_, .array (by simpa using enough) (by simpa using fit), ?_⟩
  rw [hzip v, hzip w]
  exact .member _ _ hv hw (hpasses _ (List.getElem?_eq_getElem hlt))

/-- What means a value is not rearranged. -/
theorem passes_value {α : Type} {Means : Json → α → Prop}
    (hmeans : ∀ {v a}, Means v a → Rearranged.Valued v) (v w : Json) (h : Place.value.Passes v w)
    (a : α) (hv : Means v a) : Means w a := absurd (hmeans hv) h

open Rearranged.Valued in
theorem node_passes {v w : Json} (h : Place.node.Shifts v w) : Place.node.Passes v w := by
  intro c hc
  cases hc with
  | leaf hms hoperator hfield hvalue hlogic hchildless hreads =>
    obtain ⟨ns, hns, hshift⟩ := h 5 _ hms
    have hoperator := hshift.nullable (q := .value) (by decide) (passes_value .operator) hoperator
    have hfield := hshift.nullable (q := .value) (by decide) (passes_value .text) hfield
    have hvalue := hshift.entry (q := .value) (by decide) (passes_value .operand) hvalue
    have hlogic := hshift.entry (q := .value) (by decide) (passes_value .connective) hlogic
    have hchildless := hshift.nullable (q := .nodes) (by decide) (fun _ _ hpasses => hpasses)
      (childless_iff.mp hchildless)
    exact .leaf hns hoperator hfield hvalue hlogic (childless_iff.mpr hchildless) hreads
  | group hms hoperator hfield hvalue hlogic hone hpopulated hnodes =>
    obtain ⟨ns, hns, hshift⟩ := h 5 _ hms
    have hoperator := hshift.nullable (q := .value) (by decide) (passes_value .operator) hoperator
    have hfield := hshift.nullable (q := .value) (by decide) (passes_value .text) hfield
    have hvalue := hshift.entry (q := .value) (by decide) (passes_value .operand) hvalue
    have hlogic := hshift.entry (q := .value) (by decide) (passes_value .connective) hlogic
    have hchildren := hshift.nullable (q := .nodes) (by decide) (fun _ _ hpasses => hpasses)
      (.given hone (.mk hnodes))
    obtain _ | _ | ⟨hone, @⟨vs, _, hvs⟩⟩ := hchildren
    have hpopulated : vs ≠ [] := by
      rintro rfl
      rw [List.forall₂_nil_left_iff.mp hvs] at hnodes
      exact hpopulated (List.forall₂_nil_right_iff.mp hnodes)
    exact .group hns hoperator hfield hvalue hlogic hone hpopulated hvs

theorem sortKey_passes {v w : Json} (h : Place.sortKey.Shifts v w) : Place.sortKey.Passes v w := by
  rintro k ⟨hms, hfield, hdirection⟩
  obtain ⟨ns, hns, hshift⟩ := h 1 _ hms
  have hfield := hshift.entry (q := .value) (by decide) (passes_value .text) hfield
  have hdirection := hshift.entry (q := .value) (by decide) (passes_value .direction) hdirection
  exact .mk hns hfield hdirection

theorem spec_passes {v w : Json} (h : Place.spec.Shifts v w) : Place.spec.Passes v w := by
  rintro s ⟨hms, hroot, hsorts, hoffset, hlimit⟩
  obtain ⟨ns, hns, hshift⟩ := h 0 _ hms
  have hroot := hshift.nullable (q := .node) (by decide) (fun _ _ hpasses => hpasses) hroot
  have hsorts := hshift.entry (q := .sortKeys) (by decide) (fun _ _ hpasses => hpasses) hsorts
  have hoffset := hshift.nullable (q := .value) (by decide) (passes_value .count) hoffset
  have hlimit := hshift.nullable (q := .value) (by decide) (passes_value .count) hlimit
  exact .mk hns hroot hsorts hoffset hlimit

theorem Shifted.passes {p : Place} {ms ns : Members} (h : Shifted p ms ns) {closed : Bool}
    (hvalue : p = .value → ¬ Rearranged.Valued (.object ms closed)) :
    p.Passes (.object ms closed) (.object ns closed) := by
  have hshifts := shifts_object h closed
  cases p with
  | spec => exact spec_passes hshifts
  | node => exact node_passes hshifts
  | sortKey => exact sortKey_passes hshifts
  | nodes => rintro cs ⟨⟩
  | sortKeys => rintro ks ⟨⟩
  | value => exact hvalue rfl

/-- What a document says at its place, it says rearranged. -/
theorem Rearranged.passes {p : Place} {v w : Json} (h : Rearranged p v w) : p.Passes v w := by
  have hvalue : ∀ {p v w}, Rearranged p v w → p = .value → ¬ Valued v := by
    rintro p v w h rfl
    exact h.not_valued
  induction h with
  | swap before m n after closed =>
    exact (Shifted.swap before m n after).passes (hvalue (.swap before m n after closed))
  | rename before v after closed known old new =>
    exact (Shifted.rename before v after known old new).passes
      (hvalue (.rename before v after closed known old new))
  | member before after closed inner ih =>
    exact (Shifted.member before after inner.ne_null inner.symm.ne_null ih).passes
      (hvalue (.member before after closed inner))
  | @item p v w before after inner ih =>
    have hshifts : p.Shifts (.array (before ++ v :: after)) (.array (before ++ w :: after)) :=
      shifts_array inner.ne_null inner.symm.ne_null fun key hkey => Place.item_eq hkey ▸ ih
    cases p with
    | spec => exact spec_passes hshifts
    | node => exact node_passes hshifts
    | sortKey => exact sortKey_passes hshifts
    | nodes =>
      rintro cs ⟨hitems⟩
      exact .mk (forall₂_replace ih hitems)
    | sortKeys =>
      rintro ks ⟨hitems⟩
      exact .mk (forall₂_replace ih hitems)
    | value => exact hvalue (.item before after inner) rfl

/-- However often a document is rearranged, it can still be kept and says the same. -/
theorem ofSpec_iff_of_rearranged {v w : Json}
    (h : Relation.ReflTransGen (Rearranged .spec) v w) (room : Nat) :
    v.fits room = w.fits room ∧ ∀ s, OfSpec v s ↔ OfSpec w s := by
  induction h with
  | refl => exact ⟨rfl, fun s => Iff.rfl⟩
  | tail _ hstep ih =>
    refine ⟨ih.1.trans (hstep.fits_eq room), fun s => (ih.2 s).trans ?_⟩
    exact ⟨hstep.passes s, hstep.symm.passes s⟩

end FilterQuery.Grammar
