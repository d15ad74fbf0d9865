import FilterQuery.Json.Reader
import FilterQuery.Proofs.Json.Denotation

/-!
# Numbers that are read are finite

A numeral that is out of range is an overflow and no floating-point number, so every floating-point
number in a document that is read from a text is finite.
-/
namespace FilterQuery

def Number.Finite (n : Number) : Prop := ∀ x, n = .float x → x.isFinite = true

namespace Json

def Token.Finite (t : Token) : Prop := ∀ n, t = .number n → n.Finite

/-- Every floating-point number in the document is finite. -/
inductive Finite : Json → Prop where
  | null : Finite .null
  | bool (b : Bool) : Finite (.bool b)
  | number {n : Number} (value : n.Finite) : Finite (.number n)
  | string (s : Option String) : Finite (.string s)
  | array {items : List Json} (all : ∀ v ∈ items, Finite v) : Finite (.array items)
  | object {members : List (Option String × Json)} {closed : Bool}
      (all : ∀ m ∈ members, Finite m.2) : Finite (.object members closed)
  | broken : Finite .broken

theorem Numeral.finite_value (n : Numeral) : n.value.Finite := by
  intro x hx
  cases value_eq_iff.mp hx with
  | float _ _ finite => exact finite

namespace Token

theorem finite_next {c : Char} {rest rest' : List Char} {t : Token}
    (h : next c rest = some (t, rest')) : t.Finite := by
  unfold next at h
  split at h
  -- The marks come first, then the words, then strings, and numbers last.
  iterate 6
    cases h
    exact fun n hn => (nomatch hn)
  iterate 4
    obtain ⟨_, _, heq⟩ := Option.map_eq_some_iff.mp h
    cases heq
    exact fun n hn => (nomatch hn)
  obtain ⟨⟨numeral, _⟩, _, heq⟩ := Option.map_eq_some_iff.mp h
  cases heq
  intro n hn
  cases hn
  exact numeral.finite_value

theorem finite_scan (fuel : Nat) (cs : List Char) : ∀ t ∈ scan fuel cs, t.Finite := by
  induction fuel generalizing cs with
  | zero => exact fun t ht => (nomatch ht)
  | succ fuel ih =>
    cases cs with
    | nil => exact fun t ht => (nomatch ht)
    | cons c rest =>
      unfold scan
      split
      · exact ih rest
      · split
        · next t after hnext => exact List.forall_mem_cons.mpr ⟨finite_next hnext, ih after⟩
        · intro t ht
          cases List.mem_singleton.mp ht
          exact fun n hn => (nomatch hn)

end Token

/-- Where no member begins, the object ends, with a key at most. -/
theorem exists_members_eq (fuel : Nat) {ts : List Token}
    (h : ¬ ∃ key us, ts = .string key :: .colon :: us) :
    ∃ ms, members (fuel + 1) ts = (ms, false, []) ∧ ∀ m ∈ ms, m.2 = .broken := by
  cases ts with
  | nil => exact ⟨[], rfl, fun m hm => (nomatch hm)⟩
  | cons t us =>
    cases t with
    | string key =>
      refine ⟨[(key, .broken)], ?_, fun m hm => by rw [List.mem_singleton.mp hm]⟩
      cases us with
      | nil => rfl
      | cons u us =>
        cases u with
        | colon => exact absurd ⟨key, us, rfl⟩ h
        | _ => rfl
    | _ => exact ⟨[], rfl, fun m hm => (nomatch hm)⟩

mutual

theorem finite_value (fuel : Nat) {ts : List Token} (h : ∀ t ∈ ts, t.Finite) :
    (value fuel ts).1.Finite ∧ ∀ t ∈ (value fuel ts).2, t.Finite := by
  cases fuel with
  | zero => exact ⟨.broken, fun t ht => (nomatch ht)⟩
  | succ fuel =>
    cases ts with
    | nil => exact ⟨.broken, fun t ht => (nomatch ht)⟩
    | cons t ts =>
      obtain ⟨ht, hts⟩ := List.forall_mem_cons.mp h
      cases t with
      | null => exact ⟨.null, hts⟩
      | bool b => exact ⟨.bool b, hts⟩
      | number n => exact ⟨.number (ht n rfl), hts⟩
      | string s => exact ⟨.string s, hts⟩
      | openArray =>
        by_cases hclose : ∃ rest, ts = .closeArray :: rest
        · obtain ⟨rest, rfl⟩ := hclose
          exact ⟨.array fun v hv => (nomatch hv), (List.forall_mem_cons.mp hts).2⟩
        · rw [value_openArray_eq fun rest heq => hclose ⟨rest, heq⟩]
          obtain ⟨hitems, hrest⟩ := finite_items fuel hts
          exact ⟨.array hitems, hrest⟩
      | openObject =>
        by_cases hclose : ∃ rest, ts = .closeObject :: rest
        · obtain ⟨rest, rfl⟩ := hclose
          exact ⟨.object fun m hm => (nomatch hm), (List.forall_mem_cons.mp hts).2⟩
        · rw [value_openObject_eq fun rest heq => hclose ⟨rest, heq⟩]
          obtain ⟨hmembers, hrest⟩ := finite_members fuel hts
          exact ⟨.object hmembers, hrest⟩
      | closeArray | closeObject | comma | colon | unreadable =>
        exact ⟨.broken, fun t ht => (nomatch ht)⟩

theorem finite_items (fuel : Nat) {ts : List Token} (h : ∀ t ∈ ts, t.Finite) :
    (∀ v ∈ (items fuel ts).1, v.Finite) ∧ ∀ t ∈ (items fuel ts).2, t.Finite := by
  cases fuel with
  | zero => exact ⟨fun v hv => List.mem_singleton.mp hv ▸ .broken, fun t ht => (nomatch ht)⟩
  | succ fuel =>
    obtain ⟨hvalue, hrest⟩ := finite_value fuel h
    rw [items]
    generalize value fuel ts = reading at hvalue hrest ⊢
    obtain ⟨v, us⟩ := reading
    have hbroken : ∀ w ∈ [v, .broken], w.Finite :=
      List.forall_mem_cons.mpr ⟨hvalue, fun w hw => List.mem_singleton.mp hw ▸ .broken⟩
    cases us with
    | nil => exact ⟨hbroken, fun t ht => (nomatch ht)⟩
    | cons u us =>
      obtain ⟨_, hus⟩ := List.forall_mem_cons.mp hrest
      cases u with
      | comma =>
        obtain ⟨hitems, hlast⟩ := finite_items fuel hus
        exact ⟨List.forall_mem_cons.mpr ⟨hvalue, hitems⟩, hlast⟩
      | closeArray => exact ⟨fun w hw => List.mem_singleton.mp hw ▸ hvalue, hus⟩
      | _ => exact ⟨hbroken, fun t ht => (nomatch ht)⟩

theorem finite_members (fuel : Nat) {ts : List Token} (h : ∀ t ∈ ts, t.Finite) :
    (∀ m ∈ (members fuel ts).1, m.2.Finite) ∧ ∀ t ∈ (members fuel ts).2.2, t.Finite := by
  cases fuel with
  | zero => exact ⟨fun m hm => (nomatch hm), fun t ht => (nomatch ht)⟩
  | succ fuel =>
    by_cases hmember : ∃ key us, ts = .string key :: .colon :: us
    · obtain ⟨key, us, rfl⟩ := hmember
      obtain ⟨hvalue, hrest⟩ :=
        finite_value fuel (List.forall_mem_cons.mp (List.forall_mem_cons.mp h).2).2
      rw [members]
      generalize value fuel us = reading at hvalue hrest ⊢
      obtain ⟨v, us⟩ := reading
      have hlone : ∀ m ∈ [(key, v)], m.2.Finite := fun m hm => List.mem_singleton.mp hm ▸ hvalue
      cases us with
      | nil => exact ⟨hlone, fun t ht => (nomatch ht)⟩
      | cons u us =>
        obtain ⟨_, hus⟩ := List.forall_mem_cons.mp hrest
        cases u with
        | comma =>
          obtain ⟨hmembers, hlast⟩ := finite_members fuel hus
          exact ⟨List.forall_mem_cons.mpr ⟨hvalue, hmembers⟩, hlast⟩
        | closeObject => exact ⟨hlone, hus⟩
        | _ => exact ⟨hlone, fun t ht => (nomatch ht)⟩
    · obtain ⟨ms, heq, hbroken⟩ := exists_members_eq fuel hmember
      rw [heq]
      exact ⟨fun m hm => hbroken m hm ▸ .broken, fun t ht => (nomatch ht)⟩

end

/-- A document that is read holds finite numbers only. -/
theorem finite_read (s : String) : (read s).json.Finite := by
  show (value (2 * (Token.ofText s).length + 1) (Token.ofText s)).1.Finite
  exact (finite_value _ (Token.finite_scan _ _)).1

end Json

end FilterQuery
