import FilterQuery.Decode.Spec
import FilterQuery.Proofs.Decode.Record
import FilterQuery.Proofs.Json.Document

/-!
# Decoding values

Each decoder of a kind of value accepts just what the grammar has for this kind, on documents that
can be kept at all.
-/
namespace FilterQuery

namespace Json

theorem fits_array {room : Nat} {vs : List Json} :
    (Json.array vs).fits (room + 1) = true ↔ ∀ v ∈ vs, v.fits room = true := by
  rw [fits, List.all_eq_true]

theorem fits_object {room : Nat} {ms : List (Option String × Json)} {closed : Bool} :
    (Json.object ms closed).fits (room + 1) = true ↔
      (∀ m ∈ ms, m.1.isSome = true ∧ m.2.fits room = true) ∧ closed = true := by
  rw [fits, Bool.and_eq_true, List.all_eq_true]
  simp

/-- What can be kept can be kept where there is more room. -/
theorem fits_mono {room r : Nat} (h : room ≤ r) {v : Json} (hv : v.fits room = true) :
    v.fits r = true := by
  induction room generalizing v r with
  | zero =>
    cases v with
    | array => cases hv
    | object => cases hv
    | number n => cases n <;> cases r <;> exact hv
    | _ => cases r <;> exact hv
  | succ room ih =>
    obtain ⟨r, rfl⟩ := Nat.exists_eq_add_of_le' (Nat.lt_of_lt_of_le (Nat.succ_pos room) h)
    have hle : room ≤ r := Nat.le_of_succ_le_succ h
    cases v with
    | array vs => exact fits_array.mpr fun v hmem => ih hle (fits_array.mp hv v hmem)
    | object ms closed =>
      obtain ⟨hms, hclosed⟩ := fits_object.mp hv
      exact fits_object.mpr ⟨fun m hm => ⟨(hms m hm).1, ih hle (hms m hm).2⟩, hclosed⟩
    | number n => cases n <;> exact hv
    | _ => exact hv

/-- What can be kept is JSON to its end. -/
theorem isWhole_of_fits {room : Nat} {v : Json} (h : v.fits room = true) : v.isWhole = true := by
  induction room generalizing v with
  | zero => cases v <;> first | rfl | cases h
  | succ room ih =>
    cases v with
    | array vs => exact itemsWhole_iff.mpr fun v hv => ih (fits_array.mp h v hv)
    | object ms closed =>
      obtain ⟨hms, rfl⟩ := fits_object.mp h
      rw [isWhole, membersWhole_iff.mpr fun m hm => ih (hms m hm).2, Bool.and_self]
    | broken => cases h
    | _ => rfl

theorem keyed_of_fits {room : Nat} {v : Json} (h : v.fits (room + 1) = true) : v.Keyed := by
  cases v with
  | array vs => exact fun v hv => isWhole_of_fits (fits_array.mp h v hv)
  | object ms closed =>
    obtain ⟨hms, rfl⟩ := fits_object.mp h
    exact ⟨rfl, fun m hm => ⟨(hms m hm).1, isWhole_of_fits (hms m hm).2⟩⟩
  | _ => trivial

theorem keyed_ofMembers {ms : List (String × Json)} (h : (ofMembers ms).isWhole = true) :
    (ofMembers ms).Keyed := by
  rw [ofMembers, isWhole, Bool.and_eq_true, membersWhole_iff] at h
  refine ⟨rfl, fun m hm => ⟨?_, h.1 m hm⟩⟩
  obtain ⟨n, _, rfl⟩ := List.mem_map.mp hm
  rfl

end Json

namespace Grammar

theorem mem_of_mem_under {names : List String} {ms : Members} {v : Json} (h : v ∈ under names ms) :
    ∃ m ∈ ms, m.2 = v := by
  obtain ⟨m, hm, hvalue⟩ := List.mem_filterMap.mp h
  refine ⟨m, hm, ?_⟩
  dsimp only at hvalue
  split at hvalue
  · exact Option.some.inj hvalue
  · cases hvalue

/-- What stands in a record has room for one container less. -/
theorem Fields.fits {keys names : List String} {least room : Nat} {v w : Json} {ms : Members}
    (h : Fields keys least v ms) (hv : v.fits (room + 1) = true) (hw : w ∈ under names ms) :
    w.fits room = true := by
  obtain ⟨m, hm, rfl⟩ := mem_of_mem_under hw
  cases h with
  | object => exact ((Json.fits_object.mp hv).1 m hm).2
  | array enough fit => exact Json.fits_array.mp hv m.2 (List.of_mem_zip hm).2

theorem Fields.unique {keys : List String} {least least' : Nat} {v : Json} {ms ns : Members}
    (h : Fields keys least v ms) (h' : Fields keys least' v ns) : ms = ns := by
  cases h <;> cases h' <;> rfl

variable {α : Type} {names : List String} {ms : Members} {Means Means' : Json → α → Prop}

theorem entry_congr (h : ∀ v ∈ under names ms, ∀ a, Means v a ↔ Means' v a) {a : Option α} :
    Entry names Means ms a ↔ Entry names Means' ms a := by
  constructor
  · intro hentry
    cases hentry with
    | absent nothing => exact .absent nothing
    | given one means => exact .given one ((h _ (one ▸ List.mem_cons_self) _).mp means)
  · intro hentry
    cases hentry with
    | absent nothing => exact .absent nothing
    | given one means => exact .given one ((h _ (one ▸ List.mem_cons_self) _).mpr means)

theorem Entry.length_le {a : Option α} (h : Entry names Means ms a) :
    (under names ms).length ≤ 1 := by
  cases h with
  | absent nothing => simp [nothing]
  | given one => simp [one]

theorem Entry.exists_means {a : Option α} {v : Json} (h : Entry names Means ms a)
    (hv : v ∈ under names ms) : ∃ b, Means v b := by
  cases h with
  | absent nothing =>
    rw [nothing] at hv
    cases hv
  | given one means =>
    rw [one, List.mem_singleton] at hv
    exact ⟨_, hv ▸ means⟩

theorem Entry.imp (hmeans : ∀ {v a}, Means v a → Means' v a) {a : Option α}
    (h : Entry names Means ms a) : Entry names Means' ms a := by
  cases h with
  | absent nothing => exact .absent nothing
  | given one means => exact .given one (hmeans means)

theorem Entry.unique (hmeans : ∀ {v a b}, Means v a → Means v b → a = b) {a b : Option α}
    (h : Entry names Means ms a) (h' : Entry names Means ms b) : a = b := by
  cases h with
  | absent nothing =>
    cases h' with
    | absent => rfl
    | given one =>
      rw [nothing] at one
      cases one
  | given one means =>
    cases h' with
    | absent nothing =>
      rw [nothing] at one
      cases one
    | given one' means' =>
      rw [one] at one'
      cases one'
      rw [hmeans means means']

/-- `null` means nothing, and any other value what it means. -/
inductive OrNull (Means : Json → α → Prop) : Json → Option α → Prop where
  | null : OrNull Means .null none
  | given {v : Json} {a : α} (means : Means v a) : OrNull Means v (some a)

/-- Nothing and `null` are kept apart in an entry, and count as one where it is nullable. -/
theorem nullable_iff {a : Option α} :
    Nullable names Means ms a ↔ ∃ x, Entry names (OrNull Means) ms x ∧ x.join = a := by
  constructor
  · intro h
    cases h with
    | absent nothing => exact ⟨none, .absent nothing, rfl⟩
    | null one => exact ⟨some none, .given one .null, rfl⟩
    | given one means => exact ⟨some (some _), .given one (.given means), rfl⟩
  · rintro ⟨x, hentry, rfl⟩
    cases hentry with
    | absent nothing => exact .absent nothing
    | given one means =>
      cases means with
      | null => exact .null one
      | given means => exact .given one means

theorem Nullable.length_le {a : Option α} (h : Nullable names Means ms a) :
    (under names ms).length ≤ 1 := by
  obtain ⟨_, hentry, _⟩ := nullable_iff.mp h
  exact hentry.length_le

theorem Nullable.exists_means {a : Option α} {v : Json} (h : Nullable names Means ms a)
    (hv : v ∈ under names ms) : ∃ b, OrNull Means v b := by
  obtain ⟨_, hentry, _⟩ := nullable_iff.mp h
  exact hentry.exists_means hv

theorem childless_iff {ms : Members} :
    (under childNames ms = [] ∨ under childNames ms = [.null]) ↔
      Nullable childNames OfNodes ms none := by
  constructor
  · rintro (h | h)
    · exact .absent h
    · exact .null h
  · rintro (h | h | _)
    · exact .inl h
    · exact .inr h

end Grammar

namespace Decode

open Grammar

theorem bind_eq_ok_iff {α β : Type} {x : Result α} {f : α → Result β} {b : β} :
    (x >>= f) = .ok b ↔ ∃ a, x = .ok a ∧ f a = .ok b := by
  cases x with
  | error e => simp [bind, Except.bind]
  | ok a => simp [bind, Except.bind]

/-- A value is read in one way. -/
theorem entry_unique_of_decoder {α : Type} {d : Json → Result α} {names : List String}
    {ms : Members} {a b : Option α} (h : Entry names (fun v a => d v = .ok a) ms a)
    (h' : Entry names (fun v a => d v = .ok a) ms b) : a = b := by
  refine h.unique (fun ha hb => ?_) h'
  rw [ha] at hb
  exact Except.ok.inj hb

theorem string_eq_ok_iff {room : Nat} {v : Json} {s : String} :
    Decode.string room v = .ok s ↔ OfText v s := by
  cases v with
  | string t =>
    cases t with
    | none => exact iff_of_false (expected_ne_ok _ _ s) (by rintro ⟨⟩)
    | some t =>
      constructor
      · intro h
        obtain rfl := Except.ok.inj h
        exact .mk t
      · rintro ⟨⟩
        rfl
  | _ => exact iff_of_false (expected_ne_ok _ _ s) (by rintro ⟨⟩)

theorem natural_eq_ok_iff {room : Nat} {v : Json} {n : UInt64} :
    natural room v = .ok n ↔ OfCount v n := by
  cases v with
  | number m =>
    cases m with
    | integer i =>
      rw [natural]
      by_cases hneg : i < 0
      · rw [if_pos hneg]
        refine iff_of_false (fun h => by cases h) ?_
        rintro ⟨⟩
        omega
      · by_cases hlt : i < 0x10000000000000000
        · rw [if_neg hneg, if_pos hlt]
          constructor
          · intro h
            obtain rfl := Except.ok.inj h
            have hi : ((UInt64.ofNat i.toNat).toNat : Int) = i := by
              rw [UInt64.toNat_ofNat_of_lt' (by simp only [UInt64.size]; omega)]
              omega
            have hcount := OfCount.mk (UInt64.ofNat i.toNat)
            rwa [hi] at hcount
          · rintro ⟨⟩
            simp
        · rw [if_neg hneg, if_neg hlt]
          refine iff_of_false (fun h => by cases h) ?_
          rintro ⟨⟩
          have hn := n.toNat_lt
          omega
    | _ => exact iff_of_false (expected_ne_ok _ _ n) (by rintro ⟨⟩)
  | _ => exact iff_of_false (expected_ne_ok _ _ n) (by rintro ⟨⟩)

theorem operator_eq_ok_iff {room : Nat} {v : Json} {o : Operator} :
    Decode.operator room v = .ok o ↔ OfOperator v o := by
  cases v with
  | string t =>
    cases t with
    | none => exact iff_of_false (expected_ne_ok _ _ o) (by rintro ⟨⟩)
    | some t =>
      constructor
      · intro h
        obtain rfl := Except.ok.inj h
        exact .name t
      · rintro ⟨⟩
        rfl
  | number m =>
    cases m with
    | integer i =>
      rw [Decode.operator, Except.ok.injEq]
      by_cases hneg : i < 0
      · rw [if_pos hneg]
        constructor
        · rintro rfl
          exact .negative hneg
        · rintro (_ | _ | _)
          · omega
          · rfl
      · rw [if_neg hneg]
        have hi : (i.toNat : Int) = i := by omega
        constructor
        · rintro rfl
          have hcode := OfOperator.code i.toNat
          rwa [hi] at hcode
        · rintro (_ | _ | hsign)
          · rfl
          · exact absurd hsign hneg
    | _ => exact iff_of_false (expected_ne_ok _ _ o) (by rintro ⟨⟩)
  | array vs =>
    cases room with
    | zero => exact iff_of_false (fun h => by cases h) (by rintro ⟨⟩)
    | succ room => exact iff_of_false (expected_ne_ok _ _ o) (by rintro ⟨⟩)
  | object ms closed =>
    cases room with
    | zero => exact iff_of_false (fun h => by cases h) (by rintro ⟨⟩)
    | succ room => exact iff_of_false (expected_ne_ok _ _ o) (by rintro ⟨⟩)
  | _ => exact iff_of_false (expected_ne_ok _ _ o) (by rintro ⟨⟩)

theorem pick_eq_ok_iff {α : Type} {known : List (String × α)} {s : String} {a : α} :
    variant.pick known s = .ok a ↔ known.lookup s = some a := by
  rw [variant.pick]
  cases known.lookup s with
  | none => simp [refuse]
  | some b => simp

theorem variant_eq_ok_iff {α : Type} {known : List (String × α)} {room : Nat} {v : Json}
    (hv : v.fits room = true) {a : α} : variant known room v = .ok a ↔ OfVariant known v a := by
  cases v with
  | string t =>
    cases t with
    | none => exact iff_of_false (fun h => by cases h) (by rintro ⟨⟩)
    | some t =>
      refine pick_eq_ok_iff.trans ⟨fun h => .name h, ?_⟩
      rintro (h | _)
      exact h
  | object ms closed =>
    cases room with
    | zero => cases hv
    | succ room =>
      obtain ⟨hms, rfl⟩ := Json.fits_object.mp hv
      cases ms with
      | nil => exact iff_of_false (fun h => by cases h) (by rintro ⟨⟩)
      | cons m ms =>
        obtain ⟨key, w⟩ := m
        obtain ⟨s, rfl⟩ := Option.isSome_iff_exists.mp (hms _ List.mem_cons_self).1
        cases hpick : variant.pick known s with
        | error e =>
          refine iff_of_false (fun h => by simp [variant, hpick] at h; cases h) ?_
          rintro (_ | hknown)
          rw [pick_eq_ok_iff.mpr hknown] at hpick
          cases hpick
        | ok b =>
          have hb := pick_eq_ok_iff.mp hpick
          cases w with
          | null =>
            cases ms with
            | nil =>
              have hread : variant known (room + 1) (.object [(some s, .null)] true) = .ok b := by
                simp only [variant, hpick]
                rfl
              rw [hread, Except.ok.injEq]
              constructor
              · rintro rfl
                exact .object hb
              · rintro (_ | hknown)
                exact Option.some.inj (hb.symm.trans hknown)
            | cons m ms =>
              refine iff_of_false (fun h => ?_) (by rintro ⟨⟩)
              simp only [variant, hpick] at h
              cases h
          | _ =>
            refine iff_of_false (fun h => ?_) (by rintro ⟨⟩)
            simp only [variant, hpick, bind, Except.bind] at h
            exact expected_ne_ok "unit" _ a h
  | _ => exact iff_of_false (fun h => by cases h) (by rintro ⟨⟩)

theorem scalarOfNumber_eq_some_iff {n : Number} {a : Scalar} :
    scalarOfNumber n = some a ↔ OfScalar (.number n) a := by
  cases n with
  | integer i =>
    by_cases hsmall : i < 0x8000000000000000
    · rw [scalarOfNumber, if_pos hsmall, Option.some.injEq]
      constructor
      · rintro rfl
        exact .int hsmall
      · rintro (_ | _ | _ | _ | large | _)
        · rfl
        · omega
    · have hlarge : 0x8000000000000000 ≤ i := by omega
      rw [scalarOfNumber, if_neg hsmall]
      constructor
      · intro h
        cases hnearest : Number.ofMagnitude false (Decimal.toFloat ⟨i.toNat, 0⟩) with
        | float x =>
          rw [hnearest] at h
          obtain rfl := Option.some.inj h
          exact .wide hlarge hnearest
        | _ =>
          rw [hnearest] at h
          cases h
      · rintro (_ | _ | _ | small | ⟨_, hnearest⟩ | _)
        · exact absurd small hsmall
        · rw [hnearest]
  | float x =>
    constructor
    · intro h
      obtain rfl := Option.some.inj h
      exact .float x
    · rintro (_ | _ | _ | _ | _ | _)
      rfl
  | overflow => exact iff_of_false (fun h => by cases h) (by rintro ⟨⟩)

theorem scalar?_eq_some_iff {v : Json} {a : Scalar} : scalar? v = some a ↔ OfScalar v a := by
  cases v with
  | null =>
    constructor
    · intro h
      obtain rfl := Option.some.inj h
      exact .null
    · rintro ⟨⟩
      rfl
  | bool b =>
    constructor
    · intro h
      obtain rfl := Option.some.inj h
      exact .bool b
    · rintro ⟨⟩
      rfl
  | number n => exact scalarOfNumber_eq_some_iff
  | string t =>
    cases t with
    | none => exact iff_of_false (fun h => by cases h) (by rintro ⟨⟩)
    | some t =>
      constructor
      · intro h
        obtain rfl := Option.some.inj h
        exact .text t
      · rintro ⟨⟩
        rfl
  | _ => exact iff_of_false (fun h => by cases h) (by rintro ⟨⟩)

theorem mapM_eq_some_iff {α β : Type} {f : α → Option β} {xs : List α} {ys : List β} :
    xs.mapM f = some ys ↔ List.Forall₂ (fun x y => f x = some y) xs ys := by
  induction xs generalizing ys with
  | nil => cases ys <;> simp
  | cons x xs ih =>
    rw [List.mapM_cons, List.forall₂_cons_left_iff]
    cases f x with
    | none => simp
    | some y =>
      cases hxs : xs.mapM f with
      | none => simp [← ih, hxs]
      | some zs => simp [← ih, hxs, eq_comm]

theorem mapM_eq_ok_iff {ε α β : Type} {f : α → Except ε β} {xs : List α} {ys : List β} :
    xs.mapM f = .ok ys ↔ List.Forall₂ (fun x y => f x = .ok y) xs ys := by
  induction xs generalizing ys with
  | nil => cases ys <;> simp [pure, Except.pure]
  | cons x xs ih =>
    rw [List.mapM_cons, List.forall₂_cons_left_iff]
    cases f x with
    | error e => simp [bind, Except.bind]
    | ok y =>
      cases hxs : xs.mapM f with
      | error e => simp [bind, Except.bind, ← ih, hxs]
      | ok zs => simp [bind, Except.bind, pure, Except.pure, ← ih, hxs, eq_comm]

theorem exists_of_forall₂ {α β : Type} {R : α → β → Prop} {xs : List α} {ys : List β}
    (h : List.Forall₂ R xs ys) {x : α} (hx : x ∈ xs) : ∃ y ∈ ys, R x y := by
  induction h with
  | nil => cases hx
  | cons hxy _ ih =>
    rcases List.mem_cons.mp hx with rfl | hx
    · exact ⟨_, List.mem_cons_self, hxy⟩
    · obtain ⟨y, hy, hxy⟩ := ih hx
      exact ⟨y, List.mem_cons_of_mem _ hy, hxy⟩

theorem forall₂_congr_left {α β : Type} {R S : α → β → Prop} {xs : List α} {ys : List β}
    (h : ∀ x ∈ xs, ∀ y, R x y ↔ S x y) : List.Forall₂ R xs ys ↔ List.Forall₂ S xs ys := by
  induction xs generalizing ys with
  | nil => simp
  | cons x xs ih =>
    rw [List.forall_mem_cons] at h
    simp only [List.forall₂_cons_left_iff, h.1, ih h.2]

theorem operand?_eq_some_iff {v : Json} {a : Operand} : operand? v = some a ↔ OfOperand v a := by
  by_cases harray : ∃ vs, v = .array vs
  · obtain ⟨vs, rfl⟩ := harray
    rw [operand?, Option.map_eq_some_iff]
    constructor
    · rintro ⟨values, hvalues, rfl⟩
      exact .list ((mapM_eq_some_iff.mp hvalues).imp fun _ _ h => scalar?_eq_some_iff.mp h)
    · rintro (⟨⟨⟩⟩ | hitems)
      exact ⟨_, mapM_eq_some_iff.mpr (hitems.imp fun _ _ h => scalar?_eq_some_iff.mpr h), rfl⟩
  · have hscalar : operand? v = (scalar? v).map .scalar := by
      cases v with
      | array vs => exact absurd ⟨vs, rfl⟩ harray
      | _ => rfl
    rw [hscalar, Option.map_eq_some_iff]
    constructor
    · rintro ⟨value, hvalue, rfl⟩
      exact .scalar (scalar?_eq_some_iff.mp hvalue)
    · rintro (hvalue | hitems)
      · exact ⟨_, scalar?_eq_some_iff.mpr hvalue, rfl⟩
      · exact absurd ⟨_, rfl⟩ harray

theorem operand_eq_ok_iff {room : Nat} {v : Json} (hv : v.fits room = true) {a : Operand} :
    Decode.operand room v = .ok a ↔ OfOperand v a := by
  rw [← operand?_eq_some_iff, Decode.operand, kept, if_pos hv]
  cases operand? v with
  | none => simp [refuse]
  | some b => simp

theorem optional_eq_map {α : Type} {d : Decoder α} {room : Nat} {v : Json} (hv : v ≠ .null) :
    optional d room v = (d room v).map some := by
  rw [optional]
  exact hv

/-- What is no `null` is read as the value that it is. -/
theorem optional_eq_ok_some_iff {α : Type} {d : Decoder α} {room : Nat} {v : Json} (hv : v ≠ .null)
    {a : Option α} : optional d room v = .ok a ↔ ∃ b, d room v = .ok b ∧ a = some b := by
  rw [optional_eq_map hv]
  cases d room v <;> simp [Except.map, eq_comm]

theorem optional_eq_ok_iff {α : Type} {d : Decoder α} {Means : Json → α → Prop} {room : Nat}
    {v : Json} (hd : ∀ a, d room v = .ok a ↔ Means v a) (hnull : ∀ a, ¬ Means .null a)
    {a : Option α} : optional d room v = .ok a ↔ OrNull Means v a := by
  by_cases hv : v = .null
  · subst hv
    constructor
    · intro h
      obtain rfl := Except.ok.inj h
      exact .null
    · rintro (_ | means)
      · rfl
      · exact absurd means (hnull _)
  · rw [optional_eq_ok_some_iff hv]
    constructor
    · rintro ⟨b, hb, rfl⟩
      exact .given ((hd b).mp hb)
    · rintro (_ | means)
      · exact absurd rfl hv
      · exact ⟨_, (hd _).mpr means, rfl⟩

theorem list_eq_ok_iff {α : Type} {item : Nat → Json → Result α} {Means : Json → α → Prop}
    {room : Nat} {v : Json} (hv : v.fits room = true)
    (hitem : ∀ r w, room = r + 1 → w.fits r = true → ∀ a, item r w = .ok a ↔ Means w a)
    {as : List α} :
    list item room v = .ok as ↔ ∃ vs, v = .array vs ∧ List.Forall₂ Means vs as := by
  by_cases harray : ∃ vs, v = .array vs
  · obtain ⟨vs, rfl⟩ := harray
    cases room with
    | zero => cases hv
    | succ room =>
      have hvs := Json.fits_array.mp hv
      have hread : List.Forall₂ (fun w a => item room w = .ok a) vs as ↔
          List.Forall₂ Means vs as :=
        forall₂_congr_left fun w hw a => hitem room w rfl (hvs w hw) a
      rw [list, mapM_eq_ok_iff, hread]
      simp
  · have hlist : list item room v = expected "a sequence" v := by
      rw [list]
      · exact fun vs _ h => harray ⟨vs, h⟩
      · exact fun _ vs _ h => harray ⟨vs, h⟩
    rw [hlist]
    refine iff_of_false (expected_ne_ok _ _ as) ?_
    rintro ⟨vs, rfl, _⟩
    exact harray ⟨vs, rfl⟩

end Decode

end FilterQuery
