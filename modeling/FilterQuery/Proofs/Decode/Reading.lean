import FilterQuery.Proofs.Decode.Rearranged
import FilterQuery.Proofs.Json.Printing
import Mathlib.Tactic.IntervalCases

/-!
# Decoding specs

The decoder of specs accepts just the documents of the grammar, and gives what they say.
-/
namespace FilterQuery.Decode

open Grammar

theorem not_fields_of_fits_zero {keys : List String} {least : Nat} {v : Json}
    (hv : v.fits 0 = true) {ms : Members} : ¬ Fields keys least v ms := by
  intro h
  cases h with
  | object => cases hv
  | array => cases hv

/-- The parts of a node. -/
def NodeParts.slots (child : Json → Result Condition) : (NodeParts.record child).Slots where
  all := [
    { name := "operator"
      decode := optional Decode.operator
      get := NodeParts.operator
      set := fun a p => { p with operator := some a }
      get_set := fun _ _ => rfl },
    { name := "field"
      decode := optional string
      get := NodeParts.field
      set := fun a p => { p with field := some a }
      get_set := fun _ _ => rfl },
    { name := "value"
      mayEnd := true
      decode := Decode.operand
      get := NodeParts.operand
      set := fun a p => { p with operand := some a }
      get_set := fun _ _ => rfl },
    { name := "logic"
      mayEnd := true
      decode := Decode.connective
      get := NodeParts.connective
      set := fun a p => { p with connective := some a }
      get_set := fun _ _ => rfl },
    { name := "children"
      aliases := ["conditions"]
      decode := optional (list fun _ => child)
      get := NodeParts.children
      set := fun a p => { p with children := some a }
      get_set := fun _ _ => rfl }]
  least := 5
  fields := rfl
  apart := by
    simp only [List.pairwise_cons, List.forall_mem_cons]
    and_intros <;> first
      | exact ⟨by simp [Slot.names], fun _ _ => rfl, fun _ _ => rfl⟩
      | simp
  ext := by
    intro s s' h
    simp only [List.forall_mem_cons] at h
    cases s
    cases s'
    simpa using h
  ends := by
    intro n hn
    have hn : n ≤ 5 := hn
    interval_cases n <;> simp

/-- What the parts of a node say about the members. -/
theorem take_node_eq_ok_iff {child : Json → Result Condition} {room : Nat} {v : Json}
    (hv : v.fits (room + 1) = true)
    (hchild : ∀ r w, room = r + 1 → w.fits r = true → ∀ c, child w = .ok c ↔ OfNode w c)
    {p : NodeParts} :
    (NodeParts.record child).take {} (room + 1) v = .ok p ↔
      ∃ ms, Fields nodeKeys 5 v ms ∧
        Entry ["operator"] (OrNull OfOperator) ms p.operator ∧
        Entry ["field"] (OrNull OfText) ms p.field ∧ Entry ["value"] OfOperand ms p.operand ∧
        Entry ["logic"] OfConnective ms p.connective ∧
        Entry childNames (OrNull OfNodes) ms p.children := by
  have hstart : ∀ t ∈ (NodeParts.slots child).all, t.get {} = none := by simp [NodeParts.slots]
  rw [(NodeParts.slots child).take_eq_ok_iff (Json.keyed_of_fits hv) hstart]
  refine exists_congr fun ms => and_congr_right fun hms => ?_
  have hfits : ∀ {names : List String}, ∀ w ∈ under names ms, w.fits room = true :=
    fun w hw => hms.fits hv hw
  simp only [NodeParts.slots, List.forall_mem_cons, List.not_mem_nil, false_imp_iff, implies_true,
    and_true]
  refine and_congr ?_ (and_congr ?_ (and_congr ?_ (and_congr ?_ ?_)))
  · refine entry_congr fun w _ a => optional_eq_ok_iff (fun a => operator_eq_ok_iff) ?_
    rintro a ⟨⟩
  · refine entry_congr fun w _ a => optional_eq_ok_iff (fun a => string_eq_ok_iff) ?_
    rintro a ⟨⟩
  · exact entry_congr fun w hw a => operand_eq_ok_iff (hfits w hw)
  · exact entry_congr fun w hw a => variant_eq_ok_iff (hfits w hw)
  · refine entry_congr fun w hw a => optional_eq_ok_iff (fun cs => ?_) ?_
    · rw [list_eq_ok_iff (hfits w hw) fun r x hr hx c => hchild r x hr hx c]
      constructor
      · rintro ⟨vs, rfl, hnodes⟩
        exact .mk hnodes
      · rintro ⟨hnodes⟩
        exact ⟨_, rfl, hnodes⟩
    · rintro a ⟨⟩

/-- A leaf has an operator and a field, and an operand unless the operator ignores it. -/
theorem leaf_eq_ok_iff {p : NodeParts} {c : Condition} :
    p.leaf = .ok c ↔ ∃ operator field operand, p.operator.join = some operator ∧
      p.field.join = some field ∧ LeafOperand operator p.operand operand ∧
        c = .leaf ⟨operator, field, operand⟩ := by
  unfold NodeParts.leaf
  cases p.operator.join with
  | none => simp
  | some operator =>
    cases p.field.join with
    | none => simp
    | some field =>
      cases p.operand with
      | some operand =>
        constructor
        · intro h
          exact ⟨operator, field, operand, rfl, rfl, .given operand, (Except.ok.inj h).symm⟩
        · rintro ⟨_, _, _, ⟨⟩, ⟨⟩, ⟨⟩, rfl⟩
          rfl
      | none =>
        by_cases hunread : operator.ignoresOperand = true
        · simp only [if_pos hunread]
          constructor
          · intro h
            exact ⟨operator, field, _, rfl, rfl, .ignored hunread, (Except.ok.inj h).symm⟩
          · rintro ⟨_, _, _, ⟨⟩, ⟨⟩, ⟨⟩, rfl⟩
            rfl
        · simp only [if_neg hunread]
          refine iff_of_false (fun h => by cases h) ?_
          rintro ⟨_, _, _, ⟨⟩, ⟨⟩, _ | hread, _⟩
          exact hunread hread

/-- A node with children is a group, which may not be empty; any other node is a leaf. -/
theorem node_eq_ok_iff {p : NodeParts} {c : Condition} :
    p.node = .ok c ↔ p.children.join = none ∧ p.leaf = .ok c ∨
      ∃ children, p.children.join = some children ∧ children ≠ [] ∧
        c = .group (p.connective.getD .and) children := by
  unfold NodeParts.node
  cases p.children.join with
  | none => simp
  | some children =>
    cases children with
    | nil => simp [Condition.group?]
    | cons d ds => simp [Condition.group?, eq_comm]

theorem nodeOver_eq_ok_iff_parts {child : Json → Result Condition} {room : Nat} {v : Json}
    {c : Condition} : nodeOver child room v = .ok c ↔
      ∃ p, (NodeParts.record child).take {} room v = .ok p ∧ p.node = .ok c := by
  rw [nodeOver, bind_eq_ok_iff]
  refine exists_congr fun p => and_congr_right fun _ => ?_
  cases p.node with
  | error f => simp [refuse]
  | ok d => simp

theorem nodeOver_eq_ok_iff {child : Json → Result Condition} {room : Nat} {v : Json}
    (hv : v.fits (room + 1) = true)
    (hchild : ∀ r w, room = r + 1 → w.fits r = true → ∀ c, child w = .ok c ↔ OfNode w c)
    {c : Condition} : nodeOver child (room + 1) v = .ok c ↔ OfNode v c := by
  rw [nodeOver_eq_ok_iff_parts]
  simp only [take_node_eq_ok_iff hv hchild, node_eq_ok_iff, leaf_eq_ok_iff]
  constructor
  · rintro ⟨p, ⟨ms, hms, hoperator, hfield, hvalue, hlogic, hchildren⟩, hp⟩
    have hoperator := nullable_iff.mpr ⟨_, hoperator, rfl⟩
    have hfield := nullable_iff.mpr ⟨_, hfield, rfl⟩
    have hchildren := nullable_iff.mpr ⟨_, hchildren, rfl⟩
    rcases hp with ⟨hnone, operator, field, operand, ho, hf, hreads, rfl⟩ | ⟨cs, hcs, hne, rfl⟩
    · rw [hnone] at hchildren
      rw [ho] at hoperator
      rw [hf] at hfield
      exact .leaf hms hoperator hfield hvalue hlogic (childless_iff.mpr hchildren) hreads
    · rw [hcs] at hchildren
      obtain _ | _ | ⟨hone, @⟨vs, _, hnodes⟩⟩ := hchildren
      have hpopulated : vs ≠ [] := by
        rintro rfl
        exact hne (List.forall₂_nil_left_iff.mp hnodes)
      exact .group hms hoperator hfield hvalue hlogic hone hpopulated hnodes
  · intro hnode
    cases hnode with
    | leaf hms hoperator hfield hvalue hlogic hchildless hreads =>
      obtain ⟨o, ho, hojoin⟩ := nullable_iff.mp hoperator
      obtain ⟨f, hf, hfjoin⟩ := nullable_iff.mp hfield
      obtain ⟨cs, hcs, hcsjoin⟩ := nullable_iff.mp (childless_iff.mp hchildless)
      refine ⟨⟨o, f, _, _, cs⟩, ⟨_, hms, ho, hf, hvalue, hlogic, hcs⟩, .inl ⟨hcsjoin, ?_⟩⟩
      exact ⟨_, _, _, hojoin, hfjoin, hreads, rfl⟩
    | group hms hoperator hfield hvalue hlogic hone hpopulated hnodes =>
      obtain ⟨o, ho, hojoin⟩ := nullable_iff.mp hoperator
      obtain ⟨f, hf, hfjoin⟩ := nullable_iff.mp hfield
      have hchildren : Nullable childNames OfNodes _ (some _) :=
        .given hone (.mk hnodes)
      obtain ⟨cs, hcs, hcsjoin⟩ := nullable_iff.mp hchildren
      refine ⟨⟨o, f, _, _, cs⟩, ⟨_, hms, ho, hf, hvalue, hlogic, hcs⟩, .inr ⟨_, hcsjoin, ?_, rfl⟩⟩
      rintro rfl
      exact hpopulated (List.forall₂_nil_right_iff.mp hnodes)

/-- The decoder of conditions accepts the nodes of the grammar. -/
theorem condition_eq_ok_iff {room : Nat} {v : Json} (hv : v.fits room = true) {c : Condition} :
    condition room v = .ok c ↔ OfNode v c := by
  induction room using Nat.strongRecOn generalizing v c with
  | ind room ih =>
    rcases room with _ | _ | room
    · refine iff_of_false (fun h => ?_) (fun h => ?_)
      · obtain ⟨p, hp, _⟩ := bind_eq_ok_iff.mp h
        exact Record.take_zero_ne_ok hp
      · obtain ⟨hms⟩ | ⟨hms⟩ := h
        · exact not_fields_of_fits_zero hv hms
        · exact not_fields_of_fits_zero hv hms
    · exact nodeOver_eq_ok_iff hv fun r w hr => by omega
    · refine nodeOver_eq_ok_iff hv fun r w hr hw d => ?_
      obtain rfl : room = r := by omega
      exact ih room (by omega) hw

/-- The parts of a sort key. -/
def SortParts.slots : SortParts.record.Slots where
  all := [
    { name := "field"
      aliases := ["sort"]
      decode := string
      get := SortParts.field
      set := fun a p => { p with field := some a }
      get_set := fun _ _ => rfl },
    { name := "direction"
      aliases := ["dir"]
      mayEnd := true
      decode := Decode.direction
      get := SortParts.direction
      set := fun a p => { p with direction := some a }
      get_set := fun _ _ => rfl }]
  least := 1
  fields := rfl
  apart := by
    simp only [List.pairwise_cons, List.forall_mem_cons]
    and_intros <;> first
      | exact ⟨by simp [Slot.names], fun _ _ => rfl, fun _ _ => rfl⟩
      | simp
  ext := by
    intro s s' h
    simp only [List.forall_mem_cons] at h
    cases s
    cases s'
    simpa using h
  ends := by
    intro n hn
    have hn : n ≤ 2 := hn
    interval_cases n <;> simp

/-- The parts of a spec. -/
def SpecParts.slots : SpecParts.record.Slots where
  all := [
    { name := "root"
      mayEnd := true
      decode := optional condition
      get := SpecParts.root
      set := fun a p => { p with root := some a }
      get_set := fun _ _ => rfl },
    { name := "sorts"
      mayEnd := true
      decode := list sortKey
      get := SpecParts.sorts
      set := fun a p => { p with sorts := some a }
      get_set := fun _ _ => rfl },
    { name := "offset"
      mayEnd := true
      decode := optional natural
      get := SpecParts.offset
      set := fun a p => { p with offset := some a }
      get_set := fun _ _ => rfl },
    { name := "limit"
      mayEnd := true
      decode := optional natural
      get := SpecParts.limit
      set := fun a p => { p with limit := some a }
      get_set := fun _ _ => rfl }]
  least := 0
  fields := rfl
  apart := by
    simp only [List.pairwise_cons, List.forall_mem_cons]
    and_intros <;> first
      | exact ⟨by simp [Slot.names], fun _ _ => rfl, fun _ _ => rfl⟩
      | simp
  ext := by
    intro s s' h
    simp only [List.forall_mem_cons] at h
    cases s
    cases s'
    simpa using h
  ends := by
    intro n hn
    have hn : n ≤ 4 := hn
    interval_cases n <;> simp

theorem sortKey_eq_ok_iff {room : Nat} {v : Json} (hv : v.fits room = true) {k : SortKey} :
    sortKey room v = .ok k ↔ OfSort v k := by
  cases room with
  | zero =>
    refine iff_of_false (fun h => ?_) ?_
    · obtain ⟨p, hp, _⟩ := bind_eq_ok_iff.mp h
      exact Record.take_zero_ne_ok hp
    · rintro ⟨hms⟩
      exact not_fields_of_fits_zero hv hms
  | succ room =>
    have hstart : ∀ t ∈ SortParts.slots.all, t.get {} = none := by simp [SortParts.slots]
    have htake : ∀ p, SortParts.record.take {} (room + 1) v = .ok p ↔
        ∃ ms, Fields ["field", "direction"] 1 v ms ∧
          Entry ["field", "sort"] OfText ms p.field ∧
          Entry ["direction", "dir"] OfDirection ms p.direction := by
      intro p
      rw [SortParts.slots.take_eq_ok_iff (Json.keyed_of_fits hv) hstart]
      refine exists_congr fun ms => and_congr_right fun hms => ?_
      simp only [SortParts.slots, List.forall_mem_cons, List.not_mem_nil, false_imp_iff,
        implies_true, and_true]
      refine and_congr ?_ ?_
      · exact entry_congr fun w _ a => string_eq_ok_iff
      · exact entry_congr fun w hw a => variant_eq_ok_iff (hms.fits hv hw)
    rw [sortKey, bind_eq_ok_iff]
    constructor
    · rintro ⟨⟨field, direction⟩, hp, hk⟩
      obtain ⟨ms, hms, hfield, hdirection⟩ := (htake _).mp hp
      cases field with
      | none => cases hk
      | some field =>
        obtain rfl := Except.ok.inj hk
        exact .mk hms hfield hdirection
    · rintro ⟨hms, hfield, hdirection⟩
      exact ⟨⟨some _, _⟩, (htake _).mpr ⟨_, hms, hfield, hdirection⟩, rfl⟩

/-- The decoder of specs accepts the specs of the grammar. -/
theorem spec_eq_ok_iff {room : Nat} {v : Json} (hv : v.fits (room + 1) = true)
    {s : Spec Condition} : spec (room + 1) v = .ok s ↔ OfSpec v s := by
  have hstart : ∀ t ∈ SpecParts.slots.all, t.get {} = none := by simp [SpecParts.slots]
  have htake : ∀ p, SpecParts.record.take {} (room + 1) v = .ok p ↔
      ∃ ms, Fields ["root", "sorts", "offset", "limit"] 0 v ms ∧
        Entry ["root"] (OrNull OfNode) ms p.root ∧ Entry ["sorts"] OfSorts ms p.sorts ∧
        Entry ["offset"] (OrNull OfCount) ms p.offset ∧
        Entry ["limit"] (OrNull OfCount) ms p.limit := by
    intro p
    rw [SpecParts.slots.take_eq_ok_iff (Json.keyed_of_fits hv) hstart]
    refine exists_congr fun ms => and_congr_right fun hms => ?_
    have hfits : ∀ {names : List String}, ∀ w ∈ under names ms, w.fits room = true :=
      fun w hw => hms.fits hv hw
    simp only [SpecParts.slots, List.forall_mem_cons, List.not_mem_nil, false_imp_iff,
      implies_true, and_true]
    refine and_congr ?_ (and_congr ?_ (and_congr ?_ ?_))
    · refine entry_congr fun w hw a => optional_eq_ok_iff (fun c => ?_) ?_
      · exact condition_eq_ok_iff (hfits w hw)
      · rintro c (⟨⟨⟩⟩ | ⟨⟨⟩⟩)
    · refine entry_congr fun w hw ks => ?_
      rw [list_eq_ok_iff (hfits w hw) fun r x _ hx k => sortKey_eq_ok_iff hx]
      constructor
      · rintro ⟨vs, rfl, hkeys⟩
        exact .mk hkeys
      · rintro ⟨hkeys⟩
        exact ⟨_, rfl, hkeys⟩
    · refine entry_congr fun w _ a => optional_eq_ok_iff (fun n => natural_eq_ok_iff) ?_
      rintro n ⟨⟩
    · refine entry_congr fun w _ a => optional_eq_ok_iff (fun n => natural_eq_ok_iff) ?_
      rintro n ⟨⟩
  rw [spec, bind_eq_ok_iff]
  constructor
  · rintro ⟨p, hp, hs⟩
    obtain ⟨ms, hms, hroot, hsorts, hoffset, hlimit⟩ := (htake p).mp hp
    obtain rfl := Except.ok.inj hs
    exact .mk hms (nullable_iff.mpr ⟨_, hroot, rfl⟩) hsorts (nullable_iff.mpr ⟨_, hoffset, rfl⟩)
      (nullable_iff.mpr ⟨_, hlimit, rfl⟩)
  · rintro ⟨hms, hroot, hsorts, hoffset, hlimit⟩
    obtain ⟨r, hr, rfl⟩ := nullable_iff.mp hroot
    obtain ⟨o, ho, rfl⟩ := nullable_iff.mp hoffset
    obtain ⟨l, hl, rfl⟩ := nullable_iff.mp hlimit
    exact ⟨⟨r, _, o, l⟩, (htake _).mpr ⟨_, hms, hr, hsorts, ho, hl⟩, rfl⟩

theorem ofText_eq {α : Type} {d : Decoder α} {v : Json} {text : String} (h : Json.Spells v text)
    (hv : v.isWhole = true) : ofText d text = d nesting v := by
  rw [ofText, h.read hv]
  cases d nesting v <;> rfl

/-- A text is decoded to what the grammar has for its document, if it has anything. Neither the
layout of the text nor the order of members nor the choice among the names of a key matters. -/
theorem ofText_spec_eq_ok_iff {v : Json} {text : String} (htext : Json.Spells v text)
    (hv : v.fits nesting = true) :
    (∀ s, ofText spec text = .ok s ↔ OfSpec v s) ∧
      ∀ w other, Relation.ReflTransGen (Rearranged .spec) v w → Json.Spells w other →
        ∀ s, ofText spec other = .ok s ↔ ofText spec text = .ok s := by
  have hread : ∀ {w other}, Json.Spells w other → w.fits nesting = true →
      ∀ s, ofText spec other = .ok s ↔ OfSpec w s := by
    intro w other hother hw s
    rw [ofText_eq hother (Json.isWhole_of_fits hw)]
    exact spec_eq_ok_iff hw
  refine ⟨hread htext hv, fun w other hvw hother s => ?_⟩
  obtain ⟨hfits, hsame⟩ := ofSpec_iff_of_rearranged hvw nesting
  rw [hread hother (hfits ▸ hv), hread htext hv, hsame s]

/-- A group with one child under a name of choice, and the child an array. -/
def nullCheck (children : String) : Json :=
  .ofMembers [(children, .array [.array [.text "is_null", .text "a", .null, .text "and", .null]]),
    ("logic", .text "or")]

def limited : Json := .ofMembers [("root", nullCheck "conditions"), ("limit", .integer 5)]

/-- The same members backwards, and the children under their other name. -/
def limitedBackwards : Json := .ofMembers [("limit", .integer 5), ("root", nullCheck "children")]

theorem limited_rearranged : Relation.ReflTransGen (Rearranged .spec) limited limitedBackwards := by
  have hrename : Rearranged .node (nullCheck "conditions") (nullCheck "children") :=
    .rename [] _ _ true (List.mem_singleton.mpr rfl) (by decide) (by decide)
  exact .tail (.single (.member [] _ true hrename)) (.swap [] _ _ [] true)

theorem printable_nullCheck (children : String) : (nullCheck children).Printable := by
  have hchild : (Json.array [.text "is_null", .text "a", .null, .text "and", .null]).Printable := by
    refine Json.printable_array ?_
    simp only [List.forall_mem_cons]
    exact ⟨Json.printable_text _, Json.printable_text _, Json.printable_null,
      Json.printable_text _, Json.printable_null, by simp⟩
  refine Json.printable_ofMembers ?_
  simp only [List.forall_mem_cons]
  exact ⟨Json.printable_array (by simpa using hchild), Json.printable_text _, by simp⟩

theorem ofText_spec_limited :
    ofText spec limited.prettyText =
        .ok ⟨some (.group .or [.leaf (.unary .isNull "a")]), [], none, some 5⟩ ∧
      ofText spec limitedBackwards.compactText =
        .ok ⟨some (.group .or [.leaf (.unary .isNull "a")]), [], none, some 5⟩ := by
  have hname : Operator.ofName "is_null" = .isNull := by decide +kernel
  have hleaf : OfNode (.array [.text "is_null", .text "a", .null, .text "and", .null])
      (.leaf (.unary .isNull "a")) :=
    .leaf (.array (by decide) (by decide)) (.given rfl (hname ▸ .name "is_null"))
      (.given rfl (.mk "a")) (.given rfl (.scalar .null)) (.given rfl (.name rfl)) (.inr rfl)
      (.given _)
  have hnode : OfNode (nullCheck "conditions") (.group .or [.leaf (.unary .isNull "a")]) :=
    .group (.object _) (.absent rfl) (.absent rfl) (.absent rfl) (.given rfl (.name rfl)) rfl
      (List.cons_ne_nil _ _) (.cons hleaf .nil)
  have hspec : OfSpec limited ⟨some (.group .or [.leaf (.unary .isNull "a")]), [], none, some 5⟩ :=
    .mk (.object _) (.given rfl hnode) (.absent rfl) (.absent rfl) (.given rfl (.mk 5))
  have hlimit : (Json.integer 5).Printable := Json.printable_integer (by decide) (by decide)
  have hprint : limited.Printable := by
    refine Json.printable_ofMembers ?_
    simp only [List.forall_mem_cons]
    exact ⟨printable_nullCheck _, hlimit, by simp⟩
  have hprint' : limitedBackwards.Printable := by
    refine Json.printable_ofMembers ?_
    simp only [List.forall_mem_cons]
    exact ⟨hlimit, printable_nullCheck _, by simp⟩
  obtain ⟨hreads, hsame⟩ := ofText_spec_eq_ok_iff hprint.spells_prettyText (by decide)
  have hread := (hreads _).mpr hspec
  exact ⟨hread, (hsame _ _ limited_rearranged hprint'.spells_compactText _).mpr hread⟩

end FilterQuery.Decode
