import FilterQuery.Proofs.Decode.Reading
import FilterQuery.Proofs.Encode.Kept
import FilterQuery.Proofs.Json.Finite

/-!
# What decoding yields

Whatever form a text has that is decoded, no group of its tree is empty, each level of the tree took
two of the containers that may be opened, and all floating-point numbers are finite. What one field
of a record keeps true of the state holds of the record at the end.
-/
namespace FilterQuery

/-- The values that a container holds. -/
def Json.parts : Json → List Json
  | array items => items
  | object members _ => members.map Prod.snd
  | _ => []

theorem Json.Finite.parts {v : Json} (h : v.Finite) : ∀ w ∈ v.parts, w.Finite := by
  cases h with
  | array all => exact all
  | object all =>
    intro w hw
    obtain ⟨m, hm, rfl⟩ := List.mem_map.mp hw
    exact all m hm
  | _ => exact fun w hw => (nomatch hw)

namespace Decode

namespace Record

variable {σ : Type} {r : Record σ} {P : σ → Prop}

theorem takeMembers_keeps {room : Nat} {ms : List (Option String × Json)}
    (hstep : ∀ f ∈ r.fields, ∀ m ∈ ms, ∀ s s', P s → f.take room m.2 s = .ok s' → P s') {s s' : σ}
    (hs : P s) (h : r.takeMembers room ms s = .ok s') : P s' := by
  induction ms generalizing s with
  | nil =>
    cases h
    exact hs
  | cons m ms ih =>
    have hrest : ∀ {t}, P t → r.takeMembers room ms t = .ok s' → P s' :=
      ih fun f hf n hn => hstep f hf n (List.mem_cons_of_mem m hn)
    obtain ⟨key, v⟩ := m
    cases key with
    | none => cases h
    | some key =>
      simp only [takeMembers] at h
      split at h
      · split at h
        · exact hrest hs h
        · cases h
      · next f hf =>
        split at h
        · cases h
        · obtain ⟨t, ht, hdone⟩ := bind_eq_ok_iff.mp h
          exact hrest (hstep f (List.mem_of_find?_eq_some hf) _ List.mem_cons_self s t hs ht) hdone

theorem takeItems_keeps {room : Nat} {fields : List (Field σ)} {items : List Json}
    (hstep : ∀ f ∈ fields, ∀ v ∈ items, ∀ s s', P s → f.take room v s = .ok s' → P s')
    {count : Nat} {s s' : σ} (hs : P s) (h : r.takeItems room count fields items s = .ok s') :
    P s' := by
  induction fields generalizing items count s with
  | nil =>
    cases items with
    | nil =>
      cases h
      exact hs
    | cons v items => cases h
  | cons f fields ih =>
    cases items with
    | nil =>
      simp only [takeItems] at h
      split at h
      · exact ih (fun g hg v hv => absurd hv List.not_mem_nil) hs h
      · cases h
    | cons v items =>
      obtain ⟨t, ht, hdone⟩ := bind_eq_ok_iff.mp h
      have hfirst := hstep f List.mem_cons_self v List.mem_cons_self s t hs ht
      exact ih (fun g hg w hw => hstep g (List.mem_cons_of_mem f hg) w (List.mem_cons_of_mem v hw))
        hfirst hdone

/-- A record takes one container, and what each of its fields keeps true is true at the end. -/
theorem take_keeps {start s : σ} {room : Nat} {v : Json} (h : r.take start room v = .ok s)
    (hstart : P start)
    (hstep : ∀ inner, room = inner + 1 → ∀ f ∈ r.fields, ∀ w ∈ v.parts, ∀ s s', P s →
      f.take inner w s = .ok s' → P s') : P s := by
  cases v with
  | array items =>
    cases room with
    | zero => cases h
    | succ inner => exact takeItems_keeps (hstep inner rfl) hstart h
  | object members closed =>
    cases room with
    | zero => cases h
    | succ inner =>
      obtain ⟨t, ht, hclosed⟩ := bind_eq_ok_iff.mp h
      split at hclosed
      · cases hclosed
        refine takeMembers_keeps (fun f hf m hm => ?_) hstart ht
        exact hstep inner rfl f hf m.2 (List.mem_map_of_mem hm)
      · cases hclosed
  | _ => cases room <;> exact absurd h (expected_ne_ok _ _ s)

end Record

theorem finite_of_ofScalar {v : Json} {a : Scalar} (hv : v.Finite) (h : Grammar.OfScalar v a) :
    a.Finite := by
  intro x hx
  cases h with
  | wide large nearest =>
    cases hx
    exact Number.isFinite_of_ofMagnitude nearest
  | float y =>
    cases hx
    cases hv with
    | number value => exact value _ rfl
  | _ => cases hx

theorem finite_of_operand {room : Nat} {v : Json} {o : Operand} (hv : v.Finite)
    (h : Decode.operand room v = .ok o) : ∀ a ∈ o.scalars, a.Finite := by
  have hmeaning : operand? v = some o := by
    simp only [Decode.operand, kept] at h
    split at h
    · split at h
      · next b hb => rw [hb, Except.ok.inj h]
      · cases h
    · cases h
  cases operand?_eq_some_iff.mp hmeaning with
  | scalar value =>
    intro a ha
    cases List.mem_singleton.mp ha
    exact finite_of_ofScalar hv value
  | @list vs values items =>
    cases hv with
    | array all =>
      intro a ha
      obtain ⟨w, hw, hwa⟩ := exists_of_forall₂ items.flip ha
      exact finite_of_ofScalar (all w hw) hwa

theorem eq_ok_of_optional {α : Type} {d : Decoder α} {room : Nat} {v : Json} {a : α}
    (h : optional d room v = .ok (some a)) : d room v = .ok a := by
  by_cases hv : v = .null
  · subst hv
    cases h
  · obtain ⟨b, hb, heq⟩ := (optional_eq_ok_some_iff hv).mp h
    cases heq
    exact hb

theorem forall₂_of_list {α : Type} {item : Nat → Json → Result α} {room : Nat} {v : Json}
    {as : List α} (h : list item room v = .ok as) :
    ∃ inner vs, v = .array vs ∧ List.Forall₂ (fun w a => item inner w = .ok a) vs as := by
  cases v with
  | array vs =>
    cases room with
    | zero => cases h
    | succ inner => exact ⟨inner, vs, rfl, mapM_eq_ok_iff.mp h⟩
  | _ => cases room <;> exact absurd h (expected_ne_ok _ _ as)

/-- What the parts of a node hold: an operand of finite numbers, and children that were decoded. -/
structure NodeParts.Sound (child : Json → Result Condition) (p : NodeParts) : Prop where
  operand : ∀ o, p.operand = some o → ∀ a ∈ o.scalars, a.Finite
  children : ∀ xs, p.children = some (some xs) → ∀ x ∈ xs, ∃ w, w.Finite ∧ child w = .ok x

theorem NodeParts.sound_of_take {child : Json → Result Condition} {room : Nat} {v : Json}
    (hv : v.Finite) {p : NodeParts} (h : (NodeParts.record child).take {} room v = .ok p) :
    p.Sound child := by
  refine Record.take_keeps h ⟨fun o ho => (nomatch ho), fun xs hxs => (nomatch hxs)⟩ ?_
  intro inner _ f hf w hw p q hp hq
  have hfinite := hv.parts w hw
  simp only [NodeParts.record, List.mem_cons, List.not_mem_nil, or_false] at hf
  rcases hf with rfl | rfl | rfl | rfl | rfl
  all_goals
    obtain ⟨a, ha, hset⟩ := bind_eq_ok_iff.mp hq
    cases hset
  · exact ⟨hp.operand, hp.children⟩
  · exact ⟨hp.operand, hp.children⟩
  · refine ⟨fun o ho => ?_, hp.children⟩
    cases ho
    exact finite_of_operand hfinite ha
  · exact ⟨hp.operand, hp.children⟩
  · refine ⟨hp.operand, fun xs hxs x hx => ?_⟩
    cases hxs
    obtain ⟨_, vs, rfl, hvs⟩ := forall₂_of_list (eq_ok_of_optional ha)
    obtain ⟨w, hw, hwx⟩ := exists_of_forall₂ hvs.flip hx
    exact ⟨w, hfinite.parts w hw, hwx⟩

/-- A node is a leaf of finite numbers, or a group of at least one child that was decoded. -/
theorem node_of_nodeOver {child : Json → Result Condition} {room : Nat} {v : Json}
    (hv : v.Finite) {c : Condition} (h : nodeOver child room v = .ok c) :
    (∃ p, c = .leaf p ∧ ∀ x ∈ p.floats, x.isFinite = true) ∨
      ∃ k xs, c = .group k xs ∧ xs ≠ [] ∧ ∀ x ∈ xs, ∃ w, w.Finite ∧ child w = .ok x := by
  obtain ⟨p, hp, hnode⟩ := nodeOver_eq_ok_iff_parts.mp h
  have hsound := NodeParts.sound_of_take hv hp
  rcases node_eq_ok_iff.mp hnode with ⟨_, hleaf⟩ | ⟨xs, hxs, hne, rfl⟩
  · obtain ⟨operator, field, operand, _, _, hreads, rfl⟩ := leaf_eq_ok_iff.mp hleaf
    refine .inl ⟨_, rfl, Predicate.finite_iff.mp ?_⟩
    generalize hoperand : p.operand = given at hreads
    cases hreads with
    | given => exact hsound.operand operand hoperand
    | ignored unread =>
      intro a ha x hx
      cases List.mem_singleton.mp ha
      cases hx
  · exact .inr ⟨_, xs, rfl, hne, hsound.children xs (Option.join_eq_some_iff.mp hxs)⟩

end Decode

namespace Condition

/-- The normal form of what is decoded where `room` containers may be opened: no group is empty,
each level opens two containers but for the last one, and all numbers are finite. -/
structure NormalWithin (room : Nat) (x : Condition) : Prop where
  populated : x.populated = true
  depth : 2 * x.depth ≤ room + 1
  finite : ∀ p ∈ x.leaves, ∀ a ∈ p.floats, a.isFinite = true

theorem normalWithin_leaf {p : Predicate} (hp : ∀ x ∈ p.floats, x.isFinite = true) (room : Nat) :
    (leaf p).NormalWithin (room + 1) := by
  refine ⟨rfl, ?_, fun q hq => ?_⟩
  · rw [depth]
    omega
  · cases List.mem_singleton.mp hq
    exact hp

theorem normalWithin_all {room : Nat} {xs : List Condition}
    (h : ∀ x ∈ xs, x.NormalWithin room) :
    populatedAll xs = true ∧ 2 * depths xs ≤ room + 1 ∧
      ∀ p ∈ leavesOfAll xs, ∀ a ∈ p.floats, a.isFinite = true := by
  induction xs with
  | nil => simp [populatedAll, depths, leavesOfAll]
  | cons x xs ih =>
    obtain ⟨hx, hxs⟩ := List.forall_mem_cons.mp h
    obtain ⟨hpopulated, hdepth, hfinite⟩ := ih hxs
    have hfirst := hx.depth
    refine ⟨?_, ?_, ?_⟩
    · rw [populatedAll, hx.populated, hpopulated]
      rfl
    · rw [depths]
      omega
    · rw [leavesOfAll, List.forall_mem_append]
      exact ⟨hx.finite, hfinite⟩

theorem normalWithin_group {room : Nat} (c : Connective) {xs : List Condition} (hne : xs ≠ [])
    (h : ∀ x ∈ xs, x.NormalWithin room) : (group c xs).NormalWithin (room + 2) := by
  obtain ⟨hpopulated, hdepth, hfinite⟩ := normalWithin_all h
  refine ⟨?_, ?_, hfinite⟩
  · cases xs with
    | nil => exact absurd rfl hne
    | cons x xs => exact hpopulated
  · rw [depth]
    omega

end Condition

namespace Decode

open Condition (NormalWithin)

/-- What is decoded is in normal form. -/
theorem normalWithin_of_condition (room : Nat) {v : Json} (hv : v.Finite) {c : Condition}
    (h : condition room v = .ok c) : c.NormalWithin room := by
  induction room using Nat.strongRecOn generalizing v c with
  | ind room ih =>
    have hpositive : room ≠ 0 := by
      intro hzero
      subst hzero
      obtain ⟨p, hp, _⟩ := nodeOver_eq_ok_iff_parts.mp h
      exact Record.take_zero_ne_ok hp
    obtain ⟨inner, rfl⟩ := Nat.exists_eq_succ_of_ne_zero hpositive
    cases inner with
    | zero =>
      rcases node_of_nodeOver hv h with ⟨p, rfl, hp⟩ | ⟨k, xs, rfl, hne, hxs⟩
      · exact Condition.normalWithin_leaf hp 0
      · obtain ⟨x, hx⟩ := List.exists_mem_of_ne_nil xs hne
        obtain ⟨w, _, hmalformed⟩ := hxs x hx
        cases hmalformed
    | succ inner =>
      rcases node_of_nodeOver hv h with ⟨p, rfl, hp⟩ | ⟨k, xs, rfl, hne, hxs⟩
      · exact Condition.normalWithin_leaf hp (inner + 1)
      · refine Condition.normalWithin_group k hne fun x hx => ?_
        obtain ⟨w, hw, hcondition⟩ := hxs x hx
        exact ih inner (by omega) hw hcondition

/-- A decoded spec has at most 63 levels, as the spec itself takes one of 127 containers. -/
theorem normalWithin_of_spec {v : Json} (hv : v.Finite) {s : Spec Condition}
    (h : spec nesting v = .ok s) {c : Condition} (hc : s.root = some c) : c.NormalWithin 126 := by
  obtain ⟨p, hp, hs⟩ := bind_eq_ok_iff.mp h
  cases hs
  have hroot : ∀ x, p.root = some (some x) → x.NormalWithin 126 := by
    apply Record.take_keeps (P := fun q => ∀ x, q.root = some (some x) → x.NormalWithin 126) hp
    · exact fun x hx => (nomatch hx)
    intro inner hinner f hf w hw q r hq hr
    obtain rfl : inner = 126 := (Nat.succ.inj hinner).symm
    simp only [SpecParts.record, List.mem_cons, List.not_mem_nil, or_false] at hf
    rcases hf with rfl | rfl | rfl | rfl
    all_goals
      obtain ⟨a, ha, hset⟩ := bind_eq_ok_iff.mp hr
      cases hset
    · intro x hx
      cases hx
      exact normalWithin_of_condition 126 (hv.parts w hw) (eq_ok_of_optional ha)
    · exact hq
    · exact hq
    · exact hq
  exact hroot c (Option.join_eq_some_iff.mp hc)

end Decode

end FilterQuery
