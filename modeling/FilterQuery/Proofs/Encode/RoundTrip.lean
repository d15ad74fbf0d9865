import FilterQuery.Encode.Spec
import FilterQuery.Proofs.Decode.Reading
import FilterQuery.Proofs.Encode.Kept

/-!
# Decoding encoded specs

An encoded condition is decoded if no group is empty and the tree is not too deep: a node at level
`d` stands `2 * d` containers deep. What comes back is what the document keeps.
-/
namespace FilterQuery

open Grammar Json

theorem Scalar.printable_toJson {a : Scalar}
    (h : ∀ x, a.float? = some x → x.isFinite = true → ReadsBack x) : a.toJson.Printable := by
  cases a with
  | null => exact printable_null
  | bool b => exact printable_bool b
  | int i =>
    have hlow := i.le_toInt
    have hhigh := i.toInt_lt
    exact printable_integer (by omega) (by omega)
  | text s => exact printable_text s
  | float x =>
    rw [toJson, ofFloat]
    by_cases hx : x.isFinite = true
    · rw [if_pos hx]
      exact printable_float (h x rfl hx)
    · rw [if_neg hx]
      exact printable_null

theorem Predicate.printable_toJson {p : Predicate}
    (h : ∀ x ∈ p.floats, x.isFinite = true → ReadsBack x) : p.toJson.Printable := by
  have hscalars : ∀ a ∈ p.operand.scalars, a.toJson.Printable := by
    intro a ha
    exact Scalar.printable_toJson fun x hx => h x (List.mem_filterMap.mpr ⟨a, ha, hx⟩)
  have hoperand : p.operand.toJson.Printable := by
    obtain ⟨operator, field, operand⟩ := p
    cases operand with
    | scalar value => exact hscalars value List.mem_cons_self
    | list values =>
      refine printable_array fun v hv => ?_
      obtain ⟨a, ha, rfl⟩ := List.mem_map.mp hv
      exact hscalars a ha
  refine printable_ofMembers ?_
  simp only [List.forall_mem_cons]
  exact ⟨printable_text _, printable_text _, hoperand, by simp⟩

namespace Condition

mutual

theorem printable_toJson (x : Condition)
    (h : ∀ p ∈ x.leaves, ∀ a ∈ p.floats, a.isFinite = true → ReadsBack a) :
    x.toJson.Printable := by
  cases x with
  | leaf p => exact Predicate.printable_toJson (h p List.mem_cons_self)
  | group c children =>
    refine printable_ofMembers ?_
    simp only [List.forall_mem_cons]
    exact ⟨printable_text _, printable_array (printable_toJsons children h), by simp⟩

theorem printable_toJsons (xs : List Condition)
    (h : ∀ p ∈ leavesOfAll xs, ∀ a ∈ p.floats, a.isFinite = true → ReadsBack a) :
    ∀ v ∈ toJsons xs, v.Printable := by
  cases xs with
  | nil => simp [toJsons]
  | cons x xs =>
    rw [leavesOfAll, List.forall_mem_append] at h
    rw [toJsons, List.forall_mem_cons]
    exact ⟨printable_toJson x h.1, printable_toJsons xs h.2⟩

end

end Condition

theorem Scalar.ofScalar_toJson (a : Scalar) : OfScalar a.toJson a.kept := by
  cases a with
  | null => exact .null
  | bool b => exact .bool b
  | text s => exact .text s
  | int i =>
    have hint := OfScalar.int (i := i.toInt) (by have := i.toInt_lt; omega)
    rwa [Int64.ofInt_toInt] at hint
  | float x =>
    by_cases hx : x.isFinite = true
    · simp only [toJson, ofFloat, kept, if_pos hx]
      exact .float x
    · simp only [toJson, ofFloat, kept, if_neg hx]
      exact .null

theorem Operand.ofOperand_toJson (o : Operand) : OfOperand o.toJson o.kept := by
  cases o with
  | scalar value => exact .scalar value.ofScalar_toJson
  | list values =>
    refine .list ?_
    rw [List.forall₂_map_left_iff, List.forall₂_map_right_iff]
    exact List.forall₂_same.mpr fun a _ => a.ofScalar_toJson

theorem Scalar.fits_toJson (a : Scalar) (room : Nat) : a.toJson.fits room = true := by
  cases a with
  | float x =>
    rw [toJson, ofFloat]
    by_cases hx : x.isFinite = true
    · rw [if_pos hx]
      cases room <;> rfl
    · rw [if_neg hx]
      cases room <;> rfl
  | _ => cases room <;> rfl

theorem Operand.fits_toJson (o : Operand) (room : Nat) : o.toJson.fits (room + 1) = true := by
  cases o with
  | scalar value => exact value.fits_toJson _
  | list values =>
    refine fits_array.mpr fun v hv => ?_
    obtain ⟨a, _, rfl⟩ := List.mem_map.mp hv
    exact a.fits_toJson room

theorem Operator.ofName_name (o : Operator) : Operator.ofName o.name = o := by
  cases o <;> decide +kernel

namespace Decode

/-- A leaf is read back with what is kept of its operand, if a list has room in it. -/
theorem nodeOver_leaf (child : Json → Result Condition) (room : Nat) (p : Predicate) :
    nodeOver child (room + 2) p.toJson = .ok (.leaf p.kept) := by
  have hoperator : optional Decode.operator (room + 1) (.text p.operator.name) =
      .ok (some p.operator) := congrArg (Except.ok ∘ some) (Operator.ofName_name p.operator)
  have hfield : optional string (room + 1) (.text p.field) = .ok (some p.field) := rfl
  have hoperand : Decode.operand (room + 1) p.operand.toJson = .ok p.operand.kept :=
    (operand_eq_ok_iff (p.operand.fits_toJson room)).mpr p.operand.ofOperand_toJson
  have htake : (NodeParts.record child).take {} (room + 2) p.toJson =
      .ok { operator := some (some p.operator), field := some (some p.field),
            operand := some p.operand.kept } := by
    show (do
      let parts ← (NodeParts.record child).takeMembers (room + 1)
        [(some "operator", .text p.operator.name), (some "field", .text p.field),
          (some "value", p.operand.toJson)] {}
      if true then .ok parts else malformed) = _
    simp [Record.takeMembers, NodeParts.record, Field.answers, hoperator, hfield, hoperand, pure,
      Except.pure, bind, Except.bind]
  rw [nodeOver, htake]
  rfl

/-- A group is read back if its children are, and there are some. -/
theorem nodeOver_group_eq_ok_iff {child : Json → Result Condition} {room : Nat} {c : Connective}
    {xs : List Condition} {y : Condition} :
    nodeOver child (room + 2) (Condition.group c xs).toJson = .ok y ↔
      ∃ ys, (Condition.toJsons xs).mapM child = .ok ys ∧ ys ≠ [] ∧ y = .group c ys := by
  have hconnective : Decode.connective (room + 1) c.toJson = .ok c := by cases c <;> rfl
  have htake : (NodeParts.record child).take {} (room + 2) (Condition.group c xs).toJson =
      ((Condition.toJsons xs).mapM child).bind fun ys =>
        .ok { connective := some c, children := some (some ys) } := by
    show (do
      let parts ← (NodeParts.record child).takeMembers (room + 1)
        [(some "logic", c.toJson), (some "children", .array (Condition.toJsons xs))] {}
      if true then .ok parts else malformed) = _
    cases hxs : (Condition.toJsons xs).mapM child <;>
      simp [Record.takeMembers, NodeParts.record, Field.answers, hconnective, optional, list, hxs,
        pure, Except.pure, bind, Except.bind, Except.map]
  rw [nodeOver, htake, bind_eq_ok_iff]
  constructor
  · rintro ⟨p, hp, hy⟩
    obtain ⟨ys, hys, hparts⟩ := bind_eq_ok_iff.mp hp
    obtain rfl := Except.ok.inj hparts
    cases ys with
    | nil => cases hy
    | cons z zs => exact ⟨z :: zs, hys, List.cons_ne_nil z zs, (Except.ok.inj hy).symm⟩
  · rintro ⟨ys, hys, hne, rfl⟩
    refine ⟨_, bind_eq_ok_iff.mpr ⟨ys, hys, rfl⟩, ?_⟩
    cases ys with
    | nil => exact absurd rfl hne
    | cons z zs => rfl

mutual

/-- A condition is read back from its document if no group in it is empty and there is room for a
container a level and one for the list below it. -/
theorem condition_toJson_eq_ok_iff (x : Condition) (levels : Nat) {y : Condition} :
    condition (2 * levels) x.toJson = .ok y ↔
      x.populated = true ∧ x.depth ≤ levels ∧ y = x.kept := by
  cases levels with
  | zero =>
    refine iff_of_false (fun h => ?_) ?_
    · cases x with
      | leaf p => cases h
      | group c xs => cases h
    · cases x with
      | leaf p => simp [Condition.depth]
      | group c xs => simp [Condition.depth]
  | succ levels =>
    have hroom : condition (2 * (levels + 1)) =
        nodeOver (condition (2 * levels)) (2 * levels + 2) := rfl
    rw [hroom]
    cases x with
    | leaf p =>
      rw [Condition.toJson, nodeOver_leaf]
      simp [Condition.populated, Condition.depth, Condition.kept, eq_comm]
    | group c xs =>
      rw [nodeOver_group_eq_ok_iff]
      simp only [conditions_toJsons_eq_ok_iff xs levels]
      have hkept : Condition.keptAll xs ≠ [] ↔ xs ≠ [] := by cases xs <;> simp [Condition.keptAll]
      have hempty : xs.isEmpty = false ↔ xs ≠ [] := by cases xs <;> simp
      constructor
      · rintro ⟨ys, ⟨hpopulated, hdepth, rfl⟩, hne, rfl⟩
        refine ⟨?_, ?_, rfl⟩
        · rw [Condition.populated, hempty.mpr (hkept.mp hne), hpopulated]
          rfl
        · rw [Condition.depth]
          omega
      · rintro ⟨hpopulated, hdepth, rfl⟩
        rw [Condition.populated, Bool.and_eq_true, Bool.not_eq_true'] at hpopulated
        rw [Condition.depth] at hdepth
        refine ⟨_, ⟨hpopulated.2, by omega, rfl⟩, hkept.mpr (hempty.mp hpopulated.1), rfl⟩

theorem conditions_toJsons_eq_ok_iff (xs : List Condition) (levels : Nat) {ys : List Condition} :
    (Condition.toJsons xs).mapM (condition (2 * levels)) = .ok ys ↔
      Condition.populatedAll xs = true ∧ Condition.depths xs ≤ levels ∧
        ys = Condition.keptAll xs := by
  cases xs with
  | nil =>
    simp [Condition.toJsons, Condition.populatedAll, Condition.depths, Condition.keptAll, pure,
      Except.pure, eq_comm]
  | cons x xs =>
    rw [Condition.toJsons, List.mapM_cons, bind_eq_ok_iff, Condition.populatedAll, Bool.and_eq_true,
      Condition.depths, Condition.keptAll, Nat.max_le]
    simp only [bind_eq_ok_iff, condition_toJson_eq_ok_iff x levels,
      conditions_toJsons_eq_ok_iff xs levels]
    constructor
    · rintro ⟨y, ⟨hpopulated, hdepth, rfl⟩, zs, ⟨hpopulated', hdepth', rfl⟩, hys⟩
      exact ⟨⟨hpopulated, hpopulated'⟩, ⟨hdepth, hdepth'⟩, (Except.ok.inj hys).symm⟩
    · rintro ⟨⟨hpopulated, hpopulated'⟩, ⟨hdepth, hdepth'⟩, rfl⟩
      exact ⟨_, ⟨hpopulated, hdepth, rfl⟩, _, ⟨hpopulated', hdepth', rfl⟩, rfl⟩

end

theorem sortKey_toJson (room : Nat) (k : SortKey) : sortKey (room + 1) k.toJson = .ok k := by
  obtain ⟨field, direction⟩ := k
  cases direction <;> rfl

theorem sortKeys_toJson (room : Nat) (ks : List SortKey) :
    list sortKey (room + 2) (SortKey.listToJson ks) = .ok ks := by
  show (ks.map SortKey.toJson).mapM (sortKey (room + 1)) = .ok ks
  rw [mapM_eq_ok_iff, List.forall₂_map_left_iff]
  exact List.forall₂_same.mpr fun k _ => sortKey_toJson room k

theorem natural_ofCount (room : Nat) (n : UInt64) : natural room (.ofCount n) = .ok n :=
  natural_eq_ok_iff.mpr (.mk n)

/-- What stands under the keys of an encoded spec. -/
theorem exists_members_toJson (s : Spec Condition) :
    ∃ ms, s.toJson = .object ms true ∧
      under ["root"] ms = (s.root.map Condition.toJson).toList ∧
      under ["sorts"] ms =
        ((if s.sorts = [] then none else some s.sorts).map SortKey.listToJson).toList ∧
      under ["offset"] ms = (s.offset.map Json.ofCount).toList ∧
      under ["limit"] ms = (s.limit.map Json.ofCount).toList := by
  obtain ⟨root, sorts, offset, limit⟩ := s
  refine ⟨_, rfl, ?_, ?_, ?_, ?_⟩ <;>
    cases root <;> cases sorts <;> cases offset <;> cases limit <;> rfl

/-- An entry that an optional part was written as gives back what is read of the part. -/
theorem entry_map_iff {α β : Type} {names : List String} {ms : Members} {Means : Json → α → Prop}
    {part : Option β} {encode : β → Json} {back : β → α} {Good : β → Prop}
    (hms : under names ms = (part.map encode).toList)
    (hmeans : ∀ b a, Means (encode b) a ↔ Good b ∧ a = back b) {x : Option α} :
    Entry names Means ms x ↔ (∀ b, part = some b → Good b) ∧ x = part.map back := by
  cases part with
  | none =>
    constructor
    · intro h
      cases h with
      | absent => exact ⟨fun b hb => (by cases hb), rfl⟩
      | given one => cases hms.symm.trans one
    · rintro ⟨_, rfl⟩
      exact .absent hms
  | some b =>
    constructor
    · intro h
      cases h with
      | absent nothing => cases hms.symm.trans nothing
      | given one means =>
        obtain ⟨rfl, _⟩ := List.cons.inj (hms.symm.trans one)
        obtain ⟨hgood, rfl⟩ := (hmeans b _).mp means
        exact ⟨fun c hc => Option.some.inj hc ▸ hgood, rfl⟩
    · rintro ⟨hgood, rfl⟩
      exact .given hms ((hmeans b _).mpr ⟨hgood b rfl, rfl⟩)

theorem entry_root_iff {ms : Members} {root : Option Condition} {levels : Nat}
    (hms : under ["root"] ms = (root.map Condition.toJson).toList) {x : Option (Option Condition)} :
    Entry ["root"] (fun v a => optional condition (2 * levels) v = .ok a) ms x ↔
      (∀ c, root = some c → c.populated = true ∧ c.depth ≤ levels) ∧
        x = root.map fun c => some c.kept := by
  refine entry_map_iff hms fun c a => ?_
  have hnull : c.toJson ≠ .null := by cases c <;> exact Json.noConfusion
  rw [optional_eq_ok_some_iff hnull]
  simp only [condition_toJson_eq_ok_iff]
  constructor
  · rintro ⟨_, ⟨hpopulated, hdepth, rfl⟩, rfl⟩
    exact ⟨⟨hpopulated, hdepth⟩, rfl⟩
  · rintro ⟨⟨hpopulated, hdepth⟩, rfl⟩
    exact ⟨_, ⟨hpopulated, hdepth, rfl⟩, rfl⟩

theorem entry_sorts_iff {ms : Members} {sorts : List SortKey} {room : Nat}
    (hms : under ["sorts"] ms =
      ((if sorts = [] then none else some sorts).map SortKey.listToJson).toList)
    {x : Option (List SortKey)} :
    Entry ["sorts"] (fun v a => list sortKey (room + 2) v = .ok a) ms x ↔
      x = if sorts = [] then none else some sorts := by
  have hread : ∀ ks as, list sortKey (room + 2) (SortKey.listToJson ks) = .ok as ↔
      True ∧ as = id ks := by
    intro ks as
    rw [sortKeys_toJson]
    simp [eq_comm]
  rw [entry_map_iff hms hread]
  simp

theorem entry_count_iff {ms : Members} {key : String} {n : Option UInt64} {room : Nat}
    (hms : under [key] ms = (n.map Json.ofCount).toList) {x : Option (Option UInt64)} :
    Entry [key] (fun v a => optional natural room v = .ok a) ms x ↔ x = n.map some := by
  have hread : ∀ b a, optional natural room (Json.ofCount b) = .ok a ↔ True ∧ a = some b := by
    intro b a
    rw [optional_eq_ok_some_iff Json.noConfusion, natural_ofCount]
    simp
  rw [entry_map_iff hms hread]
  simp

/-- A spec is read back from its document if its condition is. -/
theorem spec_toJson_eq_ok_iff {s : Spec Condition} (hwhole : s.toJson.isWhole = true) (levels : Nat)
    {t : Spec Condition} :
    spec (2 * (levels + 1) + 1) s.toJson = .ok t ↔
      (∀ c, s.root = some c → c.populated = true ∧ c.depth ≤ levels + 1) ∧ t = s.kept := by
  obtain ⟨ms, hjson, hroot, hsorts, hoffset, hlimit⟩ := exists_members_toJson s
  have hkeyed : s.toJson.Keyed := Json.keyed_ofMembers hwhole
  have hstart : ∀ t ∈ SpecParts.slots.all, t.get {} = none := by simp [SpecParts.slots]
  have hfields : Fields SpecParts.slots.keys SpecParts.slots.least s.toJson ms := by
    rw [hjson]
    exact .object ms
  have htake : ∀ p, SpecParts.record.take {} (2 * (levels + 1) + 1) s.toJson = .ok p ↔
      ((∀ c, s.root = some c → c.populated = true ∧ c.depth ≤ levels + 1) ∧
        p.root = s.root.map fun c => some c.kept) ∧
      (p.sorts = if s.sorts = [] then none else some s.sorts) ∧
      p.offset = s.offset.map some ∧ p.limit = s.limit.map some := by
    intro p
    rw [SpecParts.slots.take_eq_ok_iff_of_fields hkeyed hfields hstart]
    simp only [SpecParts.slots, List.forall_mem_cons, List.not_mem_nil, false_imp_iff, implies_true,
      and_true]
    exact and_congr (entry_root_iff hroot) (and_congr (entry_sorts_iff hsorts)
      (and_congr (entry_count_iff hoffset) (entry_count_iff hlimit)))
  have hkept : (⟨(s.root.map fun c => some c.kept).join,
      (if s.sorts = [] then none else some s.sorts).getD [], (s.offset.map some).join,
        (s.limit.map some).join⟩ : Spec Condition) = s.kept := by
    obtain ⟨root, sorts, offset, limit⟩ := s
    cases root <;> cases sorts <;> cases offset <;> cases limit <;> rfl
  rw [spec, bind_eq_ok_iff]
  simp only [htake]
  constructor
  · rintro ⟨⟨root, sorts, offset, limit⟩, ⟨⟨hgood, rfl⟩, rfl, rfl, rfl⟩, ht⟩
    exact ⟨hgood, (Except.ok.inj ht).symm.trans hkept⟩
  · rintro ⟨hgood, rfl⟩
    exact ⟨⟨_, _, _, _⟩, ⟨⟨hgood, rfl⟩, rfl, rfl, rfl⟩, congrArg Except.ok hkept⟩

end Decode

namespace Spec

theorem printable_toJson {s : Spec Condition}
    (h : ∀ x ∈ s.floats, x.isFinite = true → ReadsBack x) : s.toJson.Printable := by
  have hroot : ∀ c, s.root = some c → c.toJson.Printable := by
    intro c hc
    refine c.printable_toJson ?_
    rw [forall_floats_iff] at h
    simpa [leaves, hc] using h
  have hsorts : (SortKey.listToJson s.sorts).Printable := by
    refine printable_array fun v hv => ?_
    obtain ⟨k, _, rfl⟩ := List.mem_map.mp hv
    refine printable_ofMembers ?_
    simp only [List.forall_mem_cons]
    exact ⟨printable_text _, printable_text _, by simp⟩
  have hcount : ∀ n : UInt64, (Json.ofCount n).Printable := by
    intro n
    have hn := n.toNat_lt
    exact printable_integer (by omega) (by omega)
  rw [toJson]
  refine printable_ofMembers fun m hm => ?_
  simp only [List.mem_append, Option.mem_toList, Option.map_eq_some_iff] at hm
  rcases hm with ((⟨c, hc, rfl⟩ | hm) | ⟨n, _, rfl⟩) | ⟨n, _, rfl⟩
  · exact hroot c hc
  · split at hm
    · cases hm
    · obtain rfl := List.mem_singleton.mp hm
      exact hsorts
  · exact hcount n
  · exact hcount n

/-- From either layout of its document comes back what the document keeps of a spec, if no group is
empty and the tree has at most 63 levels. -/
theorem ofText_toJson_eq_ok_iff {s : Spec Condition}
    (hfloats : ∀ x ∈ s.floats, x.isFinite = true → ReadsBack x) {text : String}
    (htext : text = s.toJson.compactText ∨ text = s.toJson.prettyText) {t : Spec Condition} :
    Decode.ofText Decode.spec text = .ok t ↔
      (∀ c, s.root = some c → c.populated = true ∧ c.depth ≤ 63) ∧ t = s.kept := by
  have hprint : s.toJson.Printable := printable_toJson hfloats
  have hspells : Json.Spells s.toJson text := by
    rcases htext with rfl | rfl
    · exact hprint.spells_compactText
    · exact hprint.spells_prettyText
  rw [Decode.ofText_eq hspells hprint.whole]
  exact Decode.spec_toJson_eq_ok_iff hprint.whole 62

/-- What a spec has to be for its document to say all of it: no group is empty, the tree has at most
63 levels, and every floating-point number is finite. -/
structure Portable (s : Spec Condition) : Prop where
  populated : ∀ c, s.root = some c → c.populated = true
  depth : ∀ c, s.root = some c → c.depth ≤ 63
  finite : ∀ x ∈ s.floats, x.isFinite = true

/-- A spec is read back from either layout of its document if and only if it is portable, given that
the texts of its finite numbers are read back. -/
theorem ofText_toJson_iff (s : Spec Condition)
    (hfloats : ∀ x ∈ s.floats, x.isFinite = true → ReadsBack x) {text : String}
    (htext : text = s.toJson.compactText ∨ text = s.toJson.prettyText) :
    (Decode.ofText Decode.spec text = .ok s ↔ s.Portable) ∧
      ((∃ t, Decode.ofText Decode.spec text = .ok t ∧ Spec.same Condition.same s t = true) ↔
        s.Portable) := by
  have hread := fun t => ofText_toJson_eq_ok_iff hfloats htext (t := t)
  have hportable : s.Portable ↔
      (∀ c, s.root = some c → c.populated = true ∧ c.depth ≤ 63) ∧
        ∀ x ∈ s.floats, x.isFinite = true := by
    constructor
    · rintro ⟨hpopulated, hdepth, hfinite⟩
      exact ⟨fun c hc => ⟨hpopulated c hc, hdepth c hc⟩, hfinite⟩
    · rintro ⟨hgood, hfinite⟩
      exact ⟨fun c hc => (hgood c hc).1, fun c hc => (hgood c hc).2, hfinite⟩
  rw [hportable]
  constructor
  · rw [hread, ← kept_eq_self_iff, eq_comm]
  · simp only [hread, ← same_kept_iff]
    constructor
    · rintro ⟨_, ⟨hgood, rfl⟩, hsame⟩
      exact ⟨hgood, hsame⟩
    · rintro ⟨hgood, hsame⟩
      exact ⟨s.kept, ⟨hgood, rfl⟩, hsame⟩

/-- A spec with two kinds of zero, an operator that is not known and a key twice in its order. -/
def varied : Spec Condition where
  root := some (.group .or [.leaf ⟨.between, "a", .list [.int 0, .float (-0.0), .float 1.5]⟩,
    .group .and [.leaf ⟨.unrecognized, "b", .scalar .null⟩]])
  sorts := [⟨"a", .ascending⟩, ⟨"a", .ascending⟩]
  offset := some 0

theorem ofText_toJson_varied :
    Decode.ofText Decode.spec varied.toJson.prettyText = .ok varied := by
  have hzero : ReadsBack (-0.0) :=
    ⟨⟨true, ['0'], some ['0'], none⟩, by decide +kernel, by decide +kernel⟩
  have hhalf : ReadsBack 1.5 :=
    ⟨⟨false, ['1'], some ['5'], none⟩, by decide +kernel, by decide +kernel⟩
  have hfloats : varied.floats = [-0.0, 1.5] := rfl
  have hreads : ∀ x ∈ varied.floats, x.isFinite = true → ReadsBack x := by
    rw [hfloats, List.forall_mem_cons, List.forall_mem_singleton]
    exact ⟨fun _ => hzero, fun _ => hhalf⟩
  have hportable : varied.Portable := by
    refine ⟨?_, ?_, ?_⟩
    · rintro c ⟨⟩
      rfl
    · rintro c ⟨⟩
      decide
    · rw [hfloats, List.forall_mem_cons, List.forall_mem_singleton]
      exact ⟨by decide +kernel, by decide +kernel⟩
  exact (ofText_toJson_iff varied hreads (.inr rfl)).1.mpr hportable

end Spec

end FilterQuery
