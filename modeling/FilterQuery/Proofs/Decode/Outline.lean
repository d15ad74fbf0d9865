import FilterQuery.Proofs.Decode.Value

/-!
# Outlines of trees

A document in which every key says something well-formed outlines a tree, also where no tree can be
built: a group may have no children, and a leaf may lack what it needs. The order in which the keys
of an object stand has no part in the outline.
-/
namespace FilterQuery

/-- What a document says of a tree, whether or not it can be built. -/
inductive Outline where
  | leaf (operator : Option Operator) (field : Option String) (operand : Option Operand)
  | group (children : List Outline)

namespace Outline

/-- The keys that a leaf lacks, in the order in which they are asked for. -/
def lacking (operator : Option Operator) (field : Option String) (operand : Option Operand) :
    List String :=
  (if operator.isNone then ["operator"] else []) ++ (if field.isNone then ["field"] else []) ++
    (if operand.isNone && !operator.any Operator.ignoresOperand then ["value"] else [])

mutual

/-- The faults of the nodes, children before their group. A leaf has the one that is met first. -/
def faults : Outline → List Condition.Fault
  | leaf operator field operand =>
    ((lacking operator field operand).head?.map .missingKey).toList
  | group children => faultsOfAll children ++ if children.isEmpty then [.emptyGroup] else []

def faultsOfAll : List Outline → List Condition.Fault
  | [] => []
  | o :: os => o.faults ++ faultsOfAll os

end

end Outline

/-- What holds of an array or object if it holds of what is in it holds of all documents. -/
@[elab_as_elim]
theorem Json.inductOn {P : Json → Prop}
    (atom : ∀ v, (∀ vs, v ≠ .array vs) → (∀ ms closed, v ≠ .object ms closed) → P v)
    (array : ∀ vs, (∀ v ∈ vs, P v) → P (.array vs))
    (object : ∀ ms closed, (∀ m ∈ ms, P m.2) → P (.object ms closed)) (v : Json) : P v :=
  @Json.rec P (fun vs => ∀ v ∈ vs, P v) (fun ms => ∀ m ∈ ms, P m.2) (fun m => P m.2)
    (atom _ nofun nofun) (fun _ => atom _ nofun nofun) (fun _ => atom _ nofun nofun)
    (fun _ => atom _ nofun nofun) array object (atom _ nofun nofun) (by simp)
    (fun _ _ hv hvs => List.forall_mem_cons.mpr ⟨hv, hvs⟩) (by simp)
    (fun _ _ hm hms => List.forall_mem_cons.mpr ⟨hm, hms⟩) (fun _ _ hv => hv) v

namespace Grammar

/-- A meaning of a value in which at most `room` containers are within one another. -/
structure Within {α : Type} (room : Nat) (Means : Json → α → Prop) (v : Json) (a : α) : Prop where
  fits : v.fits room = true
  means : Means v a

/-- What the keys of a node say of it, apart from its children. -/
structure NodeKeys (room : Nat) (ms : Members) (operator : Option Operator) (field : Option String)
    (operand : Option Operand) : Prop where
  keyed : (Json.object ms true).Keyed
  hasOperator : Nullable ["operator"] OfOperator ms operator
  hasField : Nullable ["field"] OfText ms field
  hasValue : Entry ["value"] (Within room OfOperand) ms operand
  hasLogic : ∃ connective, Entry ["logic"] (Within room OfConnective) ms connective

mutual

/-- A node in the form of an object, in which every key says something well-formed and no key is
repeated. At most `room` containers are within one another, unless under keys that are skipped. -/
inductive Outlined : Nat → Json → Outline → Prop where
  | leaf {room : Nat} {ms : Members} {operator : Option Operator} {field : Option String}
      {operand : Option Operand} (keys : NodeKeys room ms operator field operand)
      (childless : under childNames ms = [] ∨ under childNames ms = [.null]) :
      Outlined (room + 1) (.object ms true) (.leaf operator field operand)
  | group {room : Nat} {ms : Members} {operator : Option Operator} {field : Option String}
      {operand : Option Operand} {items : List Json} {children : List Outline}
      (keys : NodeKeys (room + 1) ms operator field operand)
      (hasChildren : under childNames ms = [.array items])
      (nodes : AllOutlined room items children) :
      Outlined (room + 2) (.object ms true) (.group children)

inductive AllOutlined : Nat → List Json → List Outline → Prop where
  | nil {room : Nat} : AllOutlined room [] []
  | cons {room : Nat} {v : Json} {vs : List Json} {o : Outline} {os : List Outline}
      (head : Outlined room v o) (tail : AllOutlined room vs os) :
      AllOutlined room (v :: vs) (o :: os)

end

/-- A sort key in which at most `room` containers are within one another. -/
inductive SortWithin : Nat → Json → SortKey → Prop where
  | mk {room : Nat} {v : Json} {ms : Members} {field : String} {direction : Option Direction}
      (keyed : v.Keyed) (fields : Fields ["field", "direction"] 1 v ms)
      (hasField : Entry ["field", "sort"] OfText ms (some field))
      (hasDirection : Entry ["direction", "dir"] (Within room OfDirection) ms direction) :
      SortWithin (room + 1) v ⟨field, direction.getD .ascending⟩

inductive SortsWithin : Nat → Json → List SortKey → Prop where
  | mk {room : Nat} {vs : List Json} {keys : List SortKey}
      (items : List.Forall₂ (SortWithin room) vs keys) : SortsWithin (room + 1) (.array vs) keys

/-- A spec whose root, if any, outlines a tree. -/
inductive OutlinedSpec : Nat → Json → Option Outline → Prop where
  | mk {room : Nat} {v : Json} {ms : Members} {root : Option Outline}
      {sorts : Option (List SortKey)} {offset limit : Option UInt64} (keyed : v.Keyed)
      (fields : Fields ["root", "sorts", "offset", "limit"] 0 v ms)
      (hasRoot : Nullable ["root"] (Outlined room) ms root)
      (hasSorts : Entry ["sorts"] (SortsWithin room) ms sorts)
      (hasOffset : Nullable ["offset"] OfCount ms offset)
      (hasLimit : Nullable ["limit"] OfCount ms limit) :
      OutlinedSpec (room + 1) v root

theorem OutlinedSpec.isWhole {room : Nat} {v : Json} {root : Option Outline}
    (h : OutlinedSpec room v root) : v.isWhole = true := by
  cases h with
  | mk keyed fields =>
    cases fields with
    | object ms =>
      rw [Json.isWhole, Bool.and_true]
      exact Json.membersWhole_iff.mpr fun m hm => (keyed.2 m hm).2
    | array => exact Json.itemsWhole_iff.mpr keyed

mutual

/-- The same document but for the order of the members of its objects. -/
inductive Reordered : Json → Json → Prop where
  | refl (v : Json) : Reordered v v
  | array {vs ws : List Json} (items : List.Forall₂ Reordered vs ws) :
      Reordered (.array vs) (.array ws)
  | object {ms ns ps : Members} {closed : Bool} (members : List.Forall₂ ReorderedMember ms ns)
      (order : ns.Perm ps) : Reordered (.object ms closed) (.object ps closed)

inductive ReorderedMember : Option String × Json → Option String × Json → Prop where
  | mk (key : Option String) {v w : Json} (value : Reordered v w) :
      ReorderedMember (key, v) (key, w)

end

/-- The same members in another order, and reordered themselves. -/
def Shuffled (ms ps : Members) : Prop :=
  ∃ ns : Members, List.Forall₂ ReorderedMember ms ns ∧ ns.Perm ps

/-- What a value means does not depend on the order of members. -/
def Unordered {α : Type} (Means : Json → α → Prop) : Prop :=
  ∀ ⦃v w⦄, Reordered v w → ∀ ⦃a⦄, Means v a → Means w a

theorem Reordered.array_cases {vs : List Json} {w : Json} (h : Reordered (.array vs) w) :
    ∃ ws, w = .array ws ∧ List.Forall₂ Reordered vs ws := by
  cases h with
  | refl => exact ⟨vs, rfl, List.forall₂_same.mpr fun v _ => .refl v⟩
  | array items => exact ⟨_, rfl, items⟩

theorem Reordered.object_cases {ms : Members} {closed : Bool} {w : Json}
    (h : Reordered (.object ms closed) w) : ∃ ps, w = .object ps closed ∧ Shuffled ms ps := by
  cases h with
  | refl => exact ⟨ms, rfl, ms, List.forall₂_same.mpr fun m _ => .mk m.1 (.refl m.2), .refl ms⟩
  | object members order => exact ⟨_, rfl, _, members, order⟩

theorem forall₂_zip {vs ws : List Json} (h : List.Forall₂ Reordered vs ws)
    (keys : List (Option String)) : List.Forall₂ ReorderedMember (keys.zip vs) (keys.zip ws) := by
  induction h generalizing keys with
  | nil => simp
  | cons head _ ih =>
    cases keys with
    | nil => simp
    | cons key keys => exact .cons (.mk key head) (ih keys)

namespace Shuffled

variable {α : Type} {ms ps : Members} {names : List String} {Means : Json → α → Prop}

theorem exists_of_mem (h : Shuffled ms ps) {p : Option String × Json} (hp : p ∈ ps) :
    ∃ m ∈ ms, m.1 = p.1 ∧ Reordered m.2 p.2 := by
  obtain ⟨ns, hns, hperm⟩ := h
  obtain ⟨m, hm, hmember⟩ := Decode.exists_of_forall₂ hns.flip (hperm.mem_iff.mpr hp)
  cases hmember with
  | mk key value => exact ⟨_, hm, rfl, value⟩

/-- What stands under the names is in another order, and reordered itself. -/
theorem under (h : Shuffled ms ps) (names : List String) :
    ∃ vs, List.Forall₂ Reordered (under names ms) vs ∧ vs.Perm (Grammar.under names ps) := by
  obtain ⟨ns, hns, hperm⟩ := h
  refine ⟨Grammar.under names ns, List.rel_filterMap ?_ hns, hperm.filterMap _⟩
  rintro _ _ ⟨key, value⟩
  by_cases hkey : key.any names.contains = true
  · simpa [hkey] using value
  · simp [hkey]

theorem under_eq_nil (h : Shuffled ms ps) (hms : Grammar.under names ms = []) :
    Grammar.under names ps = [] := by
  obtain ⟨vs, hvs, hperm⟩ := h.under names
  rw [hms, List.forall₂_nil_left_iff] at hvs
  rw [hvs] at hperm
  exact hperm.symm.eq_nil

theorem under_eq_singleton (h : Shuffled ms ps) {v : Json} (hms : Grammar.under names ms = [v]) :
    ∃ w, Grammar.under names ps = [w] ∧ Reordered v w := by
  obtain ⟨vs, hvs, hperm⟩ := h.under names
  rw [hms, List.forall₂_cons_left_iff] at hvs
  obtain ⟨w, rest, hvw, hrest, rfl⟩ := hvs
  rw [List.forall₂_nil_left_iff.mp hrest] at hperm
  exact ⟨w, List.perm_singleton.mp hperm.symm, hvw⟩

theorem under_eq_null (h : Shuffled ms ps) (hms : Grammar.under names ms = [.null]) :
    Grammar.under names ps = [.null] := by
  obtain ⟨w, hw, hvw⟩ := h.under_eq_singleton hms
  cases hvw
  exact hw

theorem entry (h : Shuffled ms ps)
    (hmeans : Unordered Means) {a : Option α}
    (hentry : Entry names Means ms a) : Entry names Means ps a := by
  cases hentry with
  | absent nothing => exact .absent (h.under_eq_nil nothing)
  | given one means =>
    obtain ⟨w, hw, hvw⟩ := h.under_eq_singleton one
    exact .given hw (hmeans hvw means)

theorem nullable (h : Shuffled ms ps)
    (hmeans : Unordered Means) {a : Option α}
    (hentry : Nullable names Means ms a) : Nullable names Means ps a := by
  cases hentry with
  | absent nothing => exact .absent (h.under_eq_nil nothing)
  | null one => exact .null (h.under_eq_null one)
  | given one means =>
    obtain ⟨w, hw, hvw⟩ := h.under_eq_singleton one
    exact .given hw (hmeans hvw means)

end Shuffled

namespace Reordered

variable {v w : Json}

/-- What is JSON to its end stays so. -/
theorem isWhole (h : Reordered v w) (hv : v.isWhole = true) : w.isWhole = true := by
  induction v using Json.inductOn generalizing w with
  | atom v harray hobject =>
    cases h with
    | refl => exact hv
    | array => exact absurd rfl (harray _)
    | object => exact absurd rfl (hobject _ _)
  | array vs ih =>
    obtain ⟨ws, rfl, hitems⟩ := h.array_cases
    refine Json.itemsWhole_iff.mpr fun w hw => ?_
    obtain ⟨v, hmem, hvw⟩ := Decode.exists_of_forall₂ hitems.flip hw
    exact ih v hmem hvw (Json.itemsWhole_iff.mp hv v hmem)
  | object ms closed ih =>
    obtain ⟨ps, rfl, hshuffled⟩ := h.object_cases
    rw [Json.isWhole, Bool.and_eq_true, Json.membersWhole_iff] at hv ⊢
    refine ⟨fun p hp => ?_, hv.2⟩
    obtain ⟨m, hm, _, hvalue⟩ := hshuffled.exists_of_mem hp
    exact ih m hm hvalue (hv.1 m hm)

theorem fits (h : Reordered v w) {room : Nat} (hv : v.fits room = true) : w.fits room = true := by
  induction room generalizing v w with
  | zero =>
    cases h with
    | refl => exact hv
    | array items => cases hv
    | object members order => cases hv
  | succ room ih =>
    cases h with
    | refl => exact hv
    | array items =>
      rw [Json.fits_array] at hv ⊢
      intro w hw
      obtain ⟨v, hmem, hvw⟩ := Decode.exists_of_forall₂ items.flip hw
      exact ih hvw (hv v hmem)
    | object members order =>
      rw [Json.fits_object] at hv ⊢
      refine ⟨fun p hp => ?_, hv.2⟩
      have hshuffled : Shuffled _ _ := ⟨_, members, order⟩
      obtain ⟨m, hm, hkey, hvalue⟩ := hshuffled.exists_of_mem hp
      exact ⟨hkey ▸ (hv.1 m hm).1, ih hvalue (hv.1 m hm).2⟩

theorem keyed (h : Reordered v w) (hv : v.Keyed) : w.Keyed := by
  cases h with
  | refl => exact hv
  | array items =>
    intro w hw
    obtain ⟨v, hmem, hvw⟩ := Decode.exists_of_forall₂ items.flip hw
    exact hvw.isWhole (hv v hmem)
  | object members order =>
    refine ⟨hv.1, fun p hp => ?_⟩
    have hshuffled : Shuffled _ _ := ⟨_, members, order⟩
    obtain ⟨m, hm, hkey, hvalue⟩ := hshuffled.exists_of_mem hp
    exact ⟨hkey ▸ (hv.2 m hm).1, hvalue.isWhole (hv.2 m hm).2⟩

/-- The members of a record are shuffled. -/
theorem fields {keys : List String} {least : Nat} {ms : Members} (h : Reordered v w)
    (hv : Fields keys least v ms) : ∃ ps, Fields keys least w ps ∧ Shuffled ms ps := by
  cases hv with
  | object ms =>
    obtain ⟨ps, rfl, hshuffled⟩ := h.object_cases
    exact ⟨ps, .object ps, hshuffled⟩
  | @array vs enough fit =>
    obtain ⟨ws, rfl, hitems⟩ := h.array_cases
    have hlength := hitems.length_eq
    refine ⟨_, .array (hlength ▸ enough) (hlength ▸ fit), _, ?_, .refl _⟩
    exact forall₂_zip hitems (keys.map some)

end Reordered

theorem unordered_text : Unordered OfText := by
  intro v w h s hv
  cases hv
  cases h
  exact .mk s

theorem unordered_count : Unordered OfCount := by
  intro v w h n hv
  cases hv
  cases h
  exact .mk n

theorem unordered_operator : Unordered OfOperator := by
  intro v w h o hv
  cases hv with
  | name s =>
    cases h
    exact .name s
  | code n =>
    cases h
    exact .code n
  | negative sign =>
    cases h
    exact .negative sign

theorem Reordered.eq_of_scalar {v w : Json} (h : Reordered v w) {a : Scalar}
    (hv : OfScalar v a) : v = w := by
  cases hv <;> cases h <;> rfl

theorem eq_of_scalars {vs ws : List Json} (h : List.Forall₂ Reordered vs ws)
    {values : List Scalar} (hvs : List.Forall₂ OfScalar vs values) : vs = ws := by
  induction hvs generalizing ws with
  | nil => exact (List.forall₂_nil_left_iff.mp h).symm
  | cons hv _ ih =>
    obtain ⟨w, ws, head, tail, rfl⟩ := List.forall₂_cons_left_iff.mp h
    rw [head.eq_of_scalar hv, ih tail]

theorem unordered_operand : Unordered OfOperand := by
  intro v w h o hv
  cases hv with
  | scalar value => exact h.eq_of_scalar value ▸ .scalar value
  | list items =>
    obtain ⟨ws, rfl, hitems⟩ := h.array_cases
    exact eq_of_scalars hitems items ▸ .list items

/-- An object with one member has no other order. -/
theorem unordered_variant {α : Type} {known : List (String × α)} : Unordered (OfVariant known) := by
  intro v w h a hv
  cases hv with
  | name one =>
    cases h
    exact .name one
  | object one =>
    obtain ⟨ps, rfl, ns, hns, hperm⟩ := h.object_cases
    obtain ⟨n, rest, hmember, hrest, rfl⟩ := List.forall₂_cons_left_iff.mp hns
    cases hmember with
    | mk key value =>
      cases value
      rw [List.forall₂_nil_left_iff.mp hrest] at hperm
      rw [List.perm_singleton.mp hperm.symm]
      exact .object one

theorem Unordered.within {α : Type} {Means : Json → α → Prop} (h : Unordered Means) (room : Nat) :
    Unordered (Within room Means) := by
  intro v w hvw a hv
  exact ⟨hvw.fits hv.fits, h hvw hv.means⟩

theorem Unordered.forall₂ {α : Type} {Means : Json → α → Prop} (h : Unordered Means)
    {vs ws : List Json} (hvs : List.Forall₂ Reordered vs ws) {as : List α}
    (has : List.Forall₂ Means vs as) : List.Forall₂ Means ws as := by
  induction has generalizing ws with
  | nil =>
    cases hvs
    exact .nil
  | cons means _ ih =>
    obtain ⟨w, ws, head, tail, rfl⟩ := List.forall₂_cons_left_iff.mp hvs
    exact .cons (h head means) (ih tail)

theorem NodeKeys.reordered {room : Nat} {ms ps : Members} {operator : Option Operator}
    {field : Option String} {operand : Option Operand}
    (h : NodeKeys room ms operator field operand)
    (hms : Reordered (.object ms true) (.object ps true)) (hps : Shuffled ms ps) :
    NodeKeys room ps operator field operand where
  keyed := hms.keyed h.keyed
  hasOperator := hps.nullable unordered_operator h.hasOperator
  hasField := hps.nullable unordered_text h.hasField
  hasValue := hps.entry (unordered_operand.within room) h.hasValue
  hasLogic := h.hasLogic.imp fun _ => hps.entry (unordered_variant.within room)

mutual

/-- What a node outlines does not depend on the order of its members. -/
theorem Outlined.reordered {room : Nat} {v w : Json} {o : Outline} (h : Outlined room v o)
    (hvw : Reordered v w) : Outlined room w o := by
  cases h with
  | leaf keys childless =>
    obtain ⟨ps, rfl, hps⟩ := hvw.object_cases
    exact .leaf (keys.reordered hvw hps) (childless.imp hps.under_eq_nil hps.under_eq_null)
  | group keys hasChildren nodes =>
    obtain ⟨ps, rfl, hps⟩ := hvw.object_cases
    obtain ⟨x, hx, hitems⟩ := hps.under_eq_singleton hasChildren
    obtain ⟨ws, rfl, hws⟩ := hitems.array_cases
    exact .group (keys.reordered hvw hps) hx (AllOutlined.reordered nodes hws)

theorem AllOutlined.reordered {room : Nat} {vs ws : List Json} {os : List Outline}
    (h : AllOutlined room vs os) (hvs : List.Forall₂ Reordered vs ws) : AllOutlined room ws os := by
  cases h with
  | nil =>
    cases hvs
    exact .nil
  | cons head tail =>
    cases hvs with
    | cons head' tail' =>
      exact .cons (Outlined.reordered head head') (AllOutlined.reordered tail tail')

end

theorem unordered_outlined (room : Nat) : Unordered (Outlined room) :=
  fun _ _ hvw _ h => h.reordered hvw

theorem unordered_sort (room : Nat) : Unordered (SortWithin room) := by
  intro v w hvw k h
  cases h with
  | mk keyed fields hasField hasDirection =>
    obtain ⟨ps, hps, hshuffled⟩ := hvw.fields fields
    exact .mk (hvw.keyed keyed) hps (hshuffled.entry unordered_text hasField)
      (hshuffled.entry (unordered_variant.within _) hasDirection)

theorem unordered_sorts (room : Nat) : Unordered (SortsWithin room) := by
  intro v w hvw keys h
  cases h with
  | mk items =>
    obtain ⟨ws, rfl, hitems⟩ := hvw.array_cases
    exact .mk ((unordered_sort _).forall₂ hitems items)

/-- What a document outlines does not depend on the order of members. -/
theorem OutlinedSpec.reordered {room : Nat} {v w : Json} {root : Option Outline}
    (h : OutlinedSpec room v root) (hvw : Reordered v w) : OutlinedSpec room w root := by
  cases h with
  | mk keyed fields hasRoot hasSorts hasOffset hasLimit =>
    obtain ⟨ps, hps, hshuffled⟩ := hvw.fields fields
    exact .mk (hvw.keyed keyed) hps (hshuffled.nullable (unordered_outlined _) hasRoot)
      (hshuffled.entry (unordered_sorts _) hasSorts)
      (hshuffled.nullable unordered_count hasOffset) (hshuffled.nullable unordered_count hasLimit)

end Grammar

end FilterQuery
