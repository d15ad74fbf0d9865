import FilterQuery.Decode.Record
import FilterQuery.Proofs.Decode.Grammar
import Mathlib.Data.List.Pairwise

/-!
# What a record takes

The fields of a record are gathered in parts of its state that do not touch one another. So it does
not matter in which order members are taken: the state is what each part finds among them.
-/
namespace FilterQuery

namespace Grammar

variable {names : List String} {ms : Members}

theorem under_cons_of_mem {key : String} (h : key ∈ names) (v : Json) :
    under names ((some key, v) :: ms) = v :: under names ms := by
  simp [under, h]

theorem under_cons_of_not_mem {key : String} (h : key ∉ names) (v : Json) :
    under names ((some key, v) :: ms) = under names ms := by
  simp [under, h]

end Grammar

namespace Json

/-- The value is no object, or one that is closed and has texts for keys and JSON beside them. -/
def Keyed : Json → Prop
  | .object ms closed => closed = true ∧ ∀ m ∈ ms, m.1.isSome = true ∧ m.2.isWhole = true
  | .array items => ∀ v ∈ items, v.isWhole = true
  | _ => True

end Json

theorem Grammar.Fields.keyed {keys : List String} {least : Nat} {v : Json} {ms : Members}
    (h : Fields keys least v ms) (hv : v.Keyed) :
    ∀ m ∈ ms, m.1.isSome = true ∧ m.2.isWhole = true := by
  cases h with
  | object ms => exact hv.2
  | array enough fit =>
    intro m hm
    obtain ⟨hkey, hitem⟩ := List.of_mem_zip hm
    obtain ⟨key, _, hkey⟩ := List.mem_map.mp hkey
    exact ⟨hkey ▸ rfl, hv m.2 hitem⟩

namespace Decode

open Grammar

theorem expected_ne_ok {α : Type} (what : String) (v : Json) (a : α) : expected what v ≠ .ok a := by
  intro h
  unfold expected at h
  cases hfound : found v with
  | error e => rw [hfound] at h; cases h
  | ok f => rw [hfound] at h; cases h

/-- The part of the state `σ` that a field of a record is gathered in. -/
structure Slot (σ : Type) where
  name : String
  aliases : List String := []
  mayEnd : Bool := false
  {α : Type}
  decode : Decoder α
  get : σ → Option α
  set : α → σ → σ
  get_set : ∀ a s, get (set a s) = some a

namespace Slot

variable {σ : Type}

/-- The field that takes a value into the part. -/
def field (t : Slot σ) : Field σ where
  name := t.name
  aliases := t.aliases
  mayEnd := t.mayEnd
  given := fun s => (t.get s).isSome
  take := fun room v s => do
    let a ← t.decode room v
    pure (t.set a s)

def names (t : Slot σ) : List String := t.name :: t.aliases

theorem answers_iff {t : Slot σ} {key : String} : t.field.answers key = true ↔ key ∈ t.names := by
  simp [Field.answers, field, names]

/-- The parts have no name in common, and setting one of them leaves the other. -/
structure Apart (t u : Slot σ) : Prop where
  names : ∀ name ∈ t.names, name ∉ u.names
  left : ∀ a s, u.get (t.set a s) = u.get s
  right : ∀ a s, t.get (u.set a s) = t.get s

instance : Std.Symm (@Apart σ) where
  symm _ _ h := ⟨fun name hu ht => h.names name ht hu, h.right, h.left⟩

/-- How a part changes when members are taken. -/
inductive Finds (t : Slot σ) (room : Nat) (ms : Members) : Option t.α → Option t.α → Prop where
  | kept {a : Option t.α} (nothing : under t.names ms = []) : Finds t room ms a a
  | taken {v : Json} {a : t.α} (one : under t.names ms = [v]) (decoded : t.decode room v = .ok a) :
      Finds t room ms none (some a)

theorem finds_nil_iff {t : Slot σ} {room : Nat} {a b : Option t.α} :
    t.Finds room [] a b ↔ a = b := by
  constructor
  · intro h
    cases h with
    | kept nothing => rfl
    | taken one decoded => cases one
  · rintro rfl
    exact .kept rfl

theorem finds_none_iff {t : Slot σ} {room : Nat} {ms : Members} {b : Option t.α} :
    t.Finds room ms none b ↔ Entry t.names (fun v a => t.decode room v = .ok a) ms b := by
  constructor
  · intro h
    cases h with
    | kept nothing => exact .absent nothing
    | taken one decoded => exact .given one decoded
  · intro h
    cases h with
    | absent nothing => exact .kept nothing
    | given one means => exact .taken one means

/-- A member under another key does not count. -/
theorem finds_cons_of_not_mem {t : Slot σ} {room : Nat} {key : String} (h : key ∉ t.names)
    (v : Json) {ms : Members} {a b : Option t.α} :
    t.Finds room ((some key, v) :: ms) a b ↔ t.Finds room ms a b := by
  have hunder : under t.names ((some key, v) :: ms) = under t.names ms :=
    under_cons_of_not_mem h v
  constructor
  · intro hfinds
    cases hfinds with
    | kept nothing => exact .kept (hunder ▸ nothing)
    | taken one decoded => exact .taken (hunder ▸ one) decoded
  · intro hfinds
    cases hfinds with
    | kept nothing => exact .kept (hunder.trans nothing)
    | taken one decoded => exact .taken (hunder.trans one) decoded

/-- A member of the part is taken if nothing was there, and no other one after it. -/
theorem finds_cons_of_mem {t : Slot σ} {room : Nat} {key : String} (h : key ∈ t.names) (v : Json)
    {ms : Members} {a b : Option t.α} :
    t.Finds room ((some key, v) :: ms) a b ↔
      a = none ∧ ∃ x, t.decode room v = .ok x ∧ t.Finds room ms (some x) b := by
  have hunder : under t.names ((some key, v) :: ms) = v :: under t.names ms :=
    under_cons_of_mem h v
  constructor
  · intro hfinds
    cases hfinds with
    | kept nothing =>
      rw [hunder] at nothing
      cases nothing
    | @taken w x one decoded =>
      rw [hunder] at one
      obtain ⟨rfl, hrest⟩ := List.cons.inj one
      exact ⟨rfl, x, decoded, .kept hrest⟩
  · rintro ⟨rfl, x, hx, hfinds⟩
    cases hfinds with
    | kept nothing => exact .taken (by rw [hunder, nothing]) hx

end Slot

/-- The parts of a record's state: together they are all of it. An array may end after `least` of
them. -/
structure Record.Slots {σ : Type} (r : Record σ) where
  all : List (Slot σ)
  least : Nat
  fields : r.fields = all.map Slot.field
  apart : all.Pairwise Slot.Apart
  ext : ∀ s s', (∀ t ∈ all, t.get s = t.get s') → s = s'
  ends : ∀ n ≤ all.length, least ≤ n ↔ ∀ t ∈ all.drop n, t.mayEnd = true

namespace Record

variable {σ : Type} {r : Record σ}

/-- A record is a container, so nothing is taken without room for one. -/
theorem take_zero_ne_ok {start s : σ} {v : Json} : r.take start 0 v ≠ .ok s := by
  cases v with
  | array items => exact fun h => (nomatch h)
  | object ms closed => exact fun h => (nomatch h)
  | _ => exact expected_ne_ok _ _ s

def Slots.keys (slots : r.Slots) : List String := slots.all.map Slot.name

theorem Slots.apart_of_ne (slots : r.Slots) {t u : Slot σ} (ht : t ∈ slots.all)
    (hu : u ∈ slots.all) (hne : t ≠ u) : t.Apart u :=
  slots.apart.forall ht hu hne

theorem Slots.find?_eq_some (slots : r.Slots) {t : Slot σ} (ht : t ∈ slots.all) {key : String}
    (hkey : key ∈ t.names) : r.fields.find? (·.answers key) = some t.field := by
  have hanswers : t.field.answers key = true := Slot.answers_iff.mpr hkey
  have hmem : t.field ∈ r.fields := slots.fields ▸ List.mem_map_of_mem ht
  cases hfind : r.fields.find? (·.answers key) with
  | none => exact absurd hanswers (List.find?_eq_none.mp hfind t.field hmem)
  | some f =>
    have hf : f ∈ slots.all.map Slot.field := slots.fields ▸ List.mem_of_find?_eq_some hfind
    obtain ⟨u, hu, rfl⟩ := List.mem_map.mp hf
    have hukey : u.field.answers key = true := by simpa using List.find?_some hfind
    rw [Slot.answers_iff] at hukey
    by_cases htu : t = u
    · rw [htu]
    · exact absurd hukey ((slots.apart_of_ne ht hu htu).names key hkey)

theorem Slots.find?_eq_none (slots : r.Slots) {key : String}
    (hkey : ∀ t ∈ slots.all, key ∉ t.names) : r.fields.find? (·.answers key) = none := by
  rw [slots.fields, List.find?_eq_none]
  intro f hf
  obtain ⟨t, ht, rfl⟩ := List.mem_map.mp hf
  exact fun hanswers => hkey t ht (Slot.answers_iff.mp hanswers)

/-- A second value for a part is refused unread. -/
theorem Slots.takeMembers_repeated (slots : r.Slots) {t : Slot σ} (ht : t ∈ slots.all)
    {key : String} (hkey : key ∈ t.names) {room : Nat} {v : Json} {ms : Members} {s : σ} {a : t.α}
    (hgiven : t.get s = some a) :
    r.takeMembers room ((some key, v) :: ms) s = refuse (.duplicateField t.name) := by
  have hfield : t.field.given s = true := by simp [Slot.field, hgiven]
  simp only [takeMembers, slots.find?_eq_some ht hkey, hfield, if_true]
  rfl

theorem Slots.takeMembers_free (slots : r.Slots) {t : Slot σ} (ht : t ∈ slots.all) {key : String}
    (hkey : key ∈ t.names) {room : Nat} {v : Json} {ms : Members} {s : σ} (hfree : t.get s = none) :
    r.takeMembers room ((some key, v) :: ms) s =
      (t.decode room v).bind fun a => r.takeMembers room ms (t.set a s) := by
  have hfield : t.field.given s = false := by simp [Slot.field, hfree]
  have htake : t.field.take room v s = (t.decode room v).bind fun a => .ok (t.set a s) := rfl
  simp only [takeMembers, slots.find?_eq_some ht hkey, hfield, htake]
  cases t.decode room v <;> rfl

/-- What every part finds after one member more has been taken into the part `t`. -/
theorem Slots.finds_cons (slots : r.Slots) {t : Slot σ} (ht : t ∈ slots.all) {key : String}
    (hkey : key ∈ t.names) {room : Nat} {v : Json} {a : t.α} (hv : t.decode room v = .ok a)
    {ms : Members} {s s' : σ} (hfree : t.get s = none) :
    (∀ u ∈ slots.all, u.Finds room ms (u.get (t.set a s)) (u.get s')) ↔
      ∀ u ∈ slots.all, u.Finds room ((some key, v) :: ms) (u.get s) (u.get s') := by
  refine forall₂_congr fun u hu => ?_
  by_cases htu : t = u
  · subst htu
    rw [Slot.finds_cons_of_mem hkey, t.get_set, hv, hfree]
    simp
  · have happart := slots.apart_of_ne ht hu htu
    rw [Slot.finds_cons_of_not_mem (happart.names key hkey), happart.left]

/-- The members are taken if every part finds at most one value and can read it. -/
theorem Slots.takeMembers_eq_ok_iff (slots : r.Slots) {room : Nat} {ms : Members}
    (hms : ∀ m ∈ ms, m.1.isSome = true ∧ m.2.isWhole = true) {s s' : σ} :
    r.takeMembers room ms s = .ok s' ↔
      ∀ t ∈ slots.all, t.Finds room ms (t.get s) (t.get s') := by
  induction ms generalizing s with
  | nil =>
    simp only [Slot.finds_nil_iff, takeMembers, Except.ok.injEq]
    constructor
    · rintro rfl t _
      rfl
    · exact slots.ext s s'
  | cons m ms ih =>
    obtain ⟨key, v⟩ := m
    rw [List.forall_mem_cons] at hms
    obtain ⟨⟨hkey, hv⟩, hms⟩ := hms
    obtain ⟨key, rfl⟩ := Option.isSome_iff_exists.mp hkey
    by_cases hknown : ∃ t ∈ slots.all, key ∈ t.names
    · obtain ⟨t, ht, hname⟩ := hknown
      cases hfree : t.get s with
      | some a =>
        rw [slots.takeMembers_repeated ht hname hfree]
        constructor
        · intro h
          cases h
        · intro h
          have hfinds := (Slot.finds_cons_of_mem hname v).mp (h t ht)
          rw [hfree] at hfinds
          cases hfinds.1
      | none =>
        rw [slots.takeMembers_free ht hname hfree]
        cases hdecode : t.decode room v with
        | error e =>
          constructor
          · intro h
            cases h
          · intro h
            obtain ⟨_, a, ha, _⟩ := (Slot.finds_cons_of_mem hname v).mp (h t ht)
            rw [hdecode] at ha
            cases ha
        | ok a => exact (ih hms).trans (slots.finds_cons ht hname hdecode hfree)
    · have hother : ∀ t ∈ slots.all, key ∉ t.names := fun t ht hkey => hknown ⟨t, ht, hkey⟩
      simp only [takeMembers, slots.find?_eq_none hother, hv, if_true]
      rw [ih hms]
      refine forall₂_congr fun t ht => ?_
      rw [Slot.finds_cons_of_not_mem (hother t ht)]

/-- If no part is named twice, an error in taking members is an error in reading one of them. -/
theorem Slots.takeMembers_eq_error (slots : r.Slots) {room : Nat} {ms : Members}
    (hms : ∀ m ∈ ms, m.1.isSome = true ∧ m.2.isWhole = true) {s : σ}
    (hsingle : ∀ t ∈ slots.all, under t.names ms = [] ∨
      t.get s = none ∧ (under t.names ms).length ≤ 1)
    {e : DecodeError} (h : r.takeMembers room ms s = .error e) :
    ∃ t ∈ slots.all, ∃ v ∈ under t.names ms, t.decode room v = .error e := by
  induction ms generalizing s with
  | nil => cases h
  | cons m ms ih =>
    obtain ⟨key, v⟩ := m
    rw [List.forall_mem_cons] at hms
    obtain ⟨⟨hkey, hv⟩, hms⟩ := hms
    obtain ⟨key, rfl⟩ := Option.isSome_iff_exists.mp hkey
    have hmore : (∃ t ∈ slots.all, ∃ w ∈ under t.names ms, t.decode room w = .error e) →
        ∃ t ∈ slots.all, ∃ w ∈ under t.names ((some key, v) :: ms), t.decode room w = .error e := by
      rintro ⟨t, ht, w, hw, hdecode⟩
      refine ⟨t, ht, w, ?_, hdecode⟩
      exact (List.Sublist.filterMap _ (List.sublist_cons_self _ ms)).mem hw
    by_cases hknown : ∃ t ∈ slots.all, key ∈ t.names
    · obtain ⟨t, ht, hname⟩ := hknown
      have hcons : under t.names ((some key, v) :: ms) = v :: under t.names ms :=
        under_cons_of_mem hname v
      obtain hnil | ⟨hfree, hlength⟩ := hsingle t ht
      · rw [hcons] at hnil
        cases hnil
      rw [slots.takeMembers_free ht hname hfree] at h
      cases hdecode : t.decode room v with
      | error e' =>
        rw [hdecode] at h
        cases h
        exact ⟨t, ht, v, hcons ▸ List.mem_cons_self, hdecode⟩
      | ok a =>
        rw [hdecode] at h
        refine hmore (ih hms (fun u hu => ?_) h)
        -- The part is filled now, but nothing more is named for it.
        by_cases htu : t = u
        · subst htu
          rw [hcons, List.length_cons] at hlength
          exact .inl (List.length_eq_zero_iff.mp (by omega))
        · have happart := slots.apart_of_ne ht hu htu
          have hu := hsingle u hu
          rwa [under_cons_of_not_mem (happart.names key hname), ← happart.left a s] at hu
    · have hother : ∀ t ∈ slots.all, key ∉ t.names := fun t ht hkey => hknown ⟨t, ht, hkey⟩
      simp only [takeMembers, slots.find?_eq_none hother, hv, if_true] at h
      refine hmore (ih hms (fun t ht => ?_) h)
      have ht' := hsingle t ht
      rwa [under_cons_of_not_mem (hother t ht)] at ht'

theorem takeItems_end (room count : Nat) (t : Slot σ) (ts : List (Slot σ)) (s : σ) :
    r.takeItems room count ((t :: ts).map Slot.field) [] s =
      if t.mayEnd then r.takeItems room (count + 1) (ts.map Slot.field) [] s
      else refuse (.tooShort count r.name r.fields.length) := by
  rw [List.map_cons, takeItems]
  rfl

theorem takeItems_item (room count : Nat) (t : Slot σ) (ts : List (Slot σ)) (v : Json)
    (items : List Json) (s : σ) :
    r.takeItems room count ((t :: ts).map Slot.field) (v :: items) s =
      (t.decode room v).bind fun a =>
        r.takeItems room (count + 1) (ts.map Slot.field) items (t.set a s) := by
  have htake : t.field.take room v s = (t.decode room v).bind fun a => .ok (t.set a s) := rfl
  rw [List.map_cons, takeItems, htake]
  cases t.decode room v <;> rfl

/-- An array is taken only if it has no item too many and ends where it may. -/
theorem fits_of_takeItems {room : Nat} {ts : List (Slot σ)} {items : List Json} {count : Nat}
    {s s' : σ} (h : r.takeItems room count (ts.map Slot.field) items s = .ok s') :
    items.length ≤ ts.length ∧ ∀ t ∈ ts.drop items.length, t.mayEnd = true := by
  induction ts generalizing items count s with
  | nil =>
    cases items with
    | nil => simp
    | cons v items => cases h
  | cons t ts ih =>
    cases items with
    | nil =>
      rw [takeItems_end] at h
      split at h
      · next hend =>
        obtain ⟨_, hends⟩ := ih h
        exact ⟨Nat.zero_le _, List.forall_mem_cons.mpr ⟨hend, hends⟩⟩
      · cases h
    | cons v items =>
      rw [takeItems_item] at h
      cases hdecode : t.decode room v with
      | error e =>
        rw [hdecode] at h
        cases h
      | ok a =>
        rw [hdecode] at h
        obtain ⟨hfit, hends⟩ := ih h
        exact ⟨Nat.succ_le_succ hfit, hends⟩

/-- An array is taken like the object with its items under the keys in their order. -/
theorem Slots.takeItems_eq (slots : r.Slots) {room : Nat} {ts : List (Slot σ)}
    (hsub : ts.Sublist slots.all) {items : List Json} {count : Nat} {s : σ}
    (hfree : ∀ t ∈ ts, t.get s = none) (hfit : items.length ≤ ts.length)
    (hends : ∀ t ∈ ts.drop items.length, t.mayEnd = true) :
    r.takeItems room count (ts.map Slot.field) items s =
      r.takeMembers room ((ts.map fun t => some t.name).zip items) s := by
  induction ts generalizing items count s with
  | nil =>
    obtain rfl := List.length_eq_zero_iff.mp (Nat.le_zero.mp hfit)
    rfl
  | cons t ts ih =>
    have hts : ts.Sublist slots.all := (List.sublist_cons_self t ts).trans hsub
    have ht : t ∈ slots.all := hsub.mem List.mem_cons_self
    rw [List.forall_mem_cons] at hfree
    cases items with
    | nil =>
      rw [List.length_nil, List.drop_zero, List.forall_mem_cons] at hends
      have hrest : r.takeItems room (count + 1) (ts.map Slot.field) [] s =
          r.takeMembers room ((ts.map fun t => some t.name).zip []) s :=
        ih hts hfree.2 (Nat.zero_le _) hends.2
      rw [takeItems_end, if_pos hends.1, hrest, List.zip_nil_right, List.zip_nil_right]
    | cons v items =>
      have hname : t.name ∈ t.names := List.mem_cons_self
      rw [takeItems_item, List.map_cons, List.zip_cons_cons, slots.takeMembers_free ht hname hfree.1]
      refine congrArg _ (funext fun a => ih hts ?_ (Nat.le_of_succ_le_succ hfit) hends)
      intro u hu
      have happart := List.pairwise_cons.mp (slots.apart.sublist hsub)
      rw [(happart.1 u hu).left, hfree.2 u hu]

/-- A record is taken like the object with its members. -/
theorem Slots.take_of_fields (slots : r.Slots) {room : Nat} {v : Json} {ms : Members}
    (hms : Fields slots.keys slots.least v ms) {start : σ}
    (hstart : ∀ t ∈ slots.all, t.get start = none) :
    r.take start (room + 1) v = r.takeMembers room ms start := by
  cases hms with
  | object ms =>
    simp only [take]
    cases r.takeMembers room ms start <;> rfl
  | @array items enough fit =>
    have hfit : items.length ≤ slots.all.length := by simpa [Slots.keys] using fit
    have hends := (slots.ends items.length hfit).mp enough
    have htake : r.take start (room + 1) (.array items) = r.takeItems room 0 r.fields items start :=
      rfl
    rw [htake, slots.fields, slots.takeItems_eq (.refl _) hstart hfit hends, Slots.keys,
      List.map_map]
    rfl

/-- Nothing else is taken than an object or an array that fits. -/
theorem Slots.exists_fields (slots : r.Slots) {room : Nat} {v : Json} (hv : v.Keyed) {start s' : σ}
    (h : r.take start (room + 1) v = .ok s') : ∃ ms, Fields slots.keys slots.least v ms := by
  cases v with
  | object ms closed =>
    obtain ⟨rfl, _⟩ := hv
    exact ⟨ms, .object ms⟩
  | array items =>
    have htake : r.take start (room + 1) (.array items) = r.takeItems room 0 r.fields items start :=
      rfl
    rw [htake, slots.fields] at h
    obtain ⟨hfit, hends⟩ := fits_of_takeItems h
    exact ⟨_, .array ((slots.ends items.length hfit).mpr hends) (by simpa [Slots.keys] using hfit)⟩
  | _ => exact absurd h (expected_ne_ok _ _ s')

theorem Slots.take_eq_ok_iff_of_fields (slots : r.Slots) {room : Nat} {v : Json} (hv : v.Keyed)
    {ms : Members} (hms : Fields slots.keys slots.least v ms) {start s' : σ}
    (hstart : ∀ t ∈ slots.all, t.get start = none) :
    r.take start (room + 1) v = .ok s' ↔ ∀ t ∈ slots.all,
      Entry t.names (fun v a => t.decode room v = .ok a) ms (t.get s') := by
  rw [slots.take_of_fields hms hstart, slots.takeMembers_eq_ok_iff (hms.keyed hv)]
  refine forall₂_congr fun t ht => ?_
  rw [hstart t ht, Slot.finds_none_iff]

/-- A record is taken if its members give every part an entry. -/
theorem Slots.take_eq_ok_iff (slots : r.Slots) {room : Nat} {v : Json} (hv : v.Keyed)
    {start s' : σ} (hstart : ∀ t ∈ slots.all, t.get start = none) :
    r.take start (room + 1) v = .ok s' ↔
      ∃ ms, Fields slots.keys slots.least v ms ∧ ∀ t ∈ slots.all,
        Entry t.names (fun v a => t.decode room v = .ok a) ms (t.get s') := by
  constructor
  · intro h
    obtain ⟨ms, hms⟩ := slots.exists_fields hv h
    exact ⟨ms, hms, (slots.take_eq_ok_iff_of_fields hv hms hstart).mp h⟩
  · rintro ⟨ms, hms, hentries⟩
    exact (slots.take_eq_ok_iff_of_fields hv hms hstart).mpr hentries

/-- If no part is named twice, an error in taking a record is an error in reading one of them. -/
theorem Slots.take_eq_error (slots : r.Slots) {room : Nat} {v : Json} (hv : v.Keyed) {ms : Members}
    (hms : Fields slots.keys slots.least v ms) {start : σ}
    (hstart : ∀ t ∈ slots.all, t.get start = none)
    (hsingle : ∀ t ∈ slots.all, (under t.names ms).length ≤ 1) {e : DecodeError}
    (h : r.take start (room + 1) v = .error e) :
    ∃ t ∈ slots.all, ∃ w ∈ under t.names ms, t.decode room w = .error e := by
  rw [slots.take_of_fields hms hstart] at h
  exact slots.takeMembers_eq_error (hms.keyed hv)
    (fun t ht => .inr ⟨hstart t ht, hsingle t ht⟩) h

end Record

end Decode

end FilterQuery
