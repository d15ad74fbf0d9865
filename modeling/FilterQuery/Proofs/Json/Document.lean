import FilterQuery.Json.Reader
import FilterQuery.Proofs.Json.Spelling

/-!
# The texts of documents

A document is spelled by its tokens with any white space between them. Reading such a text gives
the document back.
-/
namespace FilterQuery.Json

mutual

/-- The tokens that spell a document. -/
def tokens : Json → List Token
  | .null => [.null]
  | .bool b => [.bool b]
  | .number n => [.number n]
  | .string s => [.string s]
  | .array items => .openArray :: itemTokens items
  | .object members _ => .openObject :: memberTokens members
  | .broken => []

/-- The items with commas between them, and the end of the array. -/
def itemTokens : List Json → List Token
  | [] => [.closeArray]
  | [v] => v.tokens ++ [.closeArray]
  | v :: vs => v.tokens ++ .comma :: itemTokens vs

/-- The members with commas between them, and the end of the object. -/
def memberTokens : List (Option String × Json) → List Token
  | [] => [.closeObject]
  | [(key, v)] => .string key :: .colon :: (v.tokens ++ [.closeObject])
  | (key, v) :: rest => .string key :: .colon :: (v.tokens ++ .comma :: memberTokens rest)

end

/-- A text of a document, with any white space around its tokens. -/
def Spells (v : Json) (text : String) : Prop := Token.Spaced v.tokens text.toList

/-- Tokens that a number may stand before. -/
def NoNumber (ts : List Token) : Prop := ∀ t ∈ ts.head?, t.isNumber = false

open Token (Apart)

theorem apart_cons {t : Token} (ht : t.isNumber = false) {ts : List Token} (h : Apart ts) :
    Apart (t :: ts) := by
  cases t with
  | number n => cases ht
  | _ => exact h

theorem apart_number (n : Number) {ts : List Token} (h : Apart ts) (hts : NoNumber ts) :
    Apart (.number n :: ts) := by
  cases ts with
  | nil => exact h
  | cons t ts =>
    have ht := hts t rfl
    cases t with
    | number m => cases ht
    | _ => exact h

mutual

theorem apart_tokens (v : Json) {ts : List Token} (h : Apart ts) (hts : NoNumber ts) :
    Apart (v.tokens ++ ts) := by
  cases v with
  | number n => exact apart_number n h hts
  | array items => exact apart_cons rfl (apart_itemTokens items h)
  | object members closed => exact apart_cons rfl (apart_memberTokens members h)
  | broken => exact h
  | _ => exact apart_cons rfl h

theorem apart_itemTokens (vs : List Json) {ts : List Token} (h : Apart ts) :
    Apart (itemTokens vs ++ ts) := by
  cases vs with
  | nil => exact apart_cons rfl h
  | cons v vs =>
    cases vs with
    | nil =>
      rw [itemTokens, List.append_assoc]
      exact apart_tokens v (apart_cons rfl h) (by rintro t ⟨⟩; rfl)
    | cons w vs =>
      have hrest := apart_itemTokens (w :: vs) h
      simp only [itemTokens, List.cons_append, List.append_assoc] at hrest ⊢
      exact apart_tokens v (apart_cons rfl hrest) (by rintro t ⟨⟩; rfl)

theorem apart_memberTokens (ms : List (Option String × Json)) {ts : List Token} (h : Apart ts) :
    Apart (memberTokens ms ++ ts) := by
  cases ms with
  | nil => exact apart_cons rfl h
  | cons m ms =>
    obtain ⟨key, v⟩ := m
    cases ms with
    | nil =>
      simp only [memberTokens, List.cons_append, List.append_assoc]
      refine apart_cons rfl (apart_cons rfl ?_)
      exact apart_tokens v (apart_cons rfl h) (by rintro t ⟨⟩; rfl)
    | cons m ms =>
      have hrest := apart_memberTokens (m :: ms) h
      simp only [memberTokens, List.cons_append, List.append_assoc]
      refine apart_cons rfl (apart_cons rfl ?_)
      exact apart_tokens v (apart_cons rfl hrest) (by rintro t ⟨⟩; rfl)

end

theorem itemsWhole_iff {vs : List Json} : itemsWhole vs = true ↔ ∀ v ∈ vs, v.isWhole = true := by
  induction vs with
  | nil => simp [itemsWhole]
  | cons v vs ih => rw [itemsWhole, Bool.and_eq_true, ih, List.forall_mem_cons]

theorem membersWhole_iff {ms : List (Option String × Json)} :
    membersWhole ms = true ↔ ∀ m ∈ ms, m.2.isWhole = true := by
  induction ms with
  | nil => simp [membersWhole]
  | cons m ms ih => rw [membersWhole, Bool.and_eq_true, ih, List.forall_mem_cons]

theorem value_openArray {fuel : Nat} {t : Token} {ts rest : List Token} {vs : List Json}
    (ht : t ≠ .closeArray) (h : items fuel (t :: ts) = (vs, rest)) :
    value (fuel + 1) (.openArray :: t :: ts) = (.array vs, rest) := by
  rw [value_openArray_eq fun us heq => ht (List.cons.inj heq).1, h]

theorem value_openObject {fuel : Nat} {t : Token} {ts rest : List Token}
    {ms : List (Option String × Json)} (ht : t ≠ .closeObject)
    (h : members fuel (t :: ts) = (ms, true, rest)) :
    value (fuel + 1) (.openObject :: t :: ts) = (.object ms true, rest) := by
  rw [value_openObject_eq fun us heq => ht (List.cons.inj heq).1, h]

theorem items_last {fuel : Nat} {ts rest : List Token} {v : Json}
    (h : value fuel ts = (v, .closeArray :: rest)) : items (fuel + 1) ts = ([v], rest) := by
  rw [items, h]

theorem items_comma {fuel : Nat} {ts us rest : List Token} {v : Json} {vs : List Json}
    (h : value fuel ts = (v, .comma :: us)) (hvs : items fuel us = (vs, rest)) :
    items (fuel + 1) ts = (v :: vs, rest) := by
  rw [items, h]
  simp only [hvs]

theorem members_last {fuel : Nat} {key : Option String} {ts rest : List Token} {v : Json}
    (h : value fuel ts = (v, .closeObject :: rest)) :
    members (fuel + 1) (.string key :: .colon :: ts) = ([(key, v)], true, rest) := by
  rw [members, h]

theorem members_comma {fuel : Nat} {key : Option String} {ts us rest : List Token} {v : Json}
    {ms : List (Option String × Json)} (h : value fuel ts = (v, .comma :: us))
    (hms : members fuel us = (ms, true, rest)) :
    members (fuel + 1) (.string key :: .colon :: ts) = ((key, v) :: ms, true, rest) := by
  rw [members, h]
  simp only [hms]

/-- A whole document begins with a token that closes nothing. -/
theorem exists_head_tokens {v : Json} (h : v.isWhole = true) :
    ∃ t ts, v.tokens = t :: ts ∧ t ≠ .closeArray := by
  cases v with
  | broken => cases h
  | _ => exact ⟨_, _, rfl, by simp⟩

theorem exists_head_itemTokens {v : Json} (h : v.isWhole = true) (vs : List Json) :
    ∃ t ts, itemTokens (v :: vs) = t :: ts ∧ t ≠ .closeArray := by
  obtain ⟨t, ts, ht, hclose⟩ := exists_head_tokens h
  cases vs with
  | nil => exact ⟨t, _, by rw [itemTokens, ht]; rfl, hclose⟩
  | cons w vs => exact ⟨t, ts ++ .comma :: itemTokens (w :: vs), by simp [itemTokens, ht], hclose⟩

mutual

/-- A whole document is read from its tokens, whatever follows them. -/
theorem value_tokens {v : Json} (hv : v.isWhole = true) {fuel : Nat}
    (hfuel : v.tokens.length ≤ fuel) (rest : List Token) :
    value fuel (v.tokens ++ rest) = (v, rest) := by
  cases fuel with
  | zero =>
    obtain ⟨t, ts, ht, _⟩ := exists_head_tokens hv
    rw [ht] at hfuel
    cases hfuel
  | succ fuel =>
    cases v with
    | null => rfl
    | bool b => rfl
    | number n => rfl
    | string s => rfl
    | broken => cases hv
    | array vs =>
      cases vs with
      | nil => rfl
      | cons v vs =>
        have hwhole : v.isWhole = true ∧ itemsWhole vs = true := by
          simpa [isWhole, itemsWhole] using hv
        have hitems := items_tokens (List.cons_ne_nil v vs) hv (Nat.le_of_succ_le_succ hfuel) rest
        obtain ⟨t, ts, ht, hclose⟩ := exists_head_itemTokens hwhole.1 vs
        rw [ht] at hitems
        rw [tokens, ht]
        exact value_openArray hclose hitems
    | object ms closed =>
      have hwhole : membersWhole ms = true ∧ closed = true := by simpa [isWhole] using hv
      obtain ⟨hms, rfl⟩ := hwhole
      cases ms with
      | nil => rfl
      | cons m ms =>
        have hmembers := members_tokens (List.cons_ne_nil m ms) hms
          (Nat.le_of_succ_le_succ hfuel) rest
        obtain ⟨key, v⟩ := m
        rw [tokens]
        cases ms with
        | nil => exact value_openObject (by simp) hmembers
        | cons m ms => exact value_openObject (by simp) hmembers

theorem items_tokens {vs : List Json} (hne : vs ≠ []) (hvs : itemsWhole vs = true) {fuel : Nat}
    (hfuel : (itemTokens vs).length ≤ fuel) (rest : List Token) :
    items fuel (itemTokens vs ++ rest) = (vs, rest) := by
  cases vs with
  | nil => exact absurd rfl hne
  | cons v vs =>
    have hwhole : v.isWhole = true ∧ itemsWhole vs = true := by simpa [itemsWhole] using hvs
    cases fuel with
    | zero =>
      obtain ⟨t, ts, ht, _⟩ := exists_head_itemTokens hwhole.1 vs
      rw [ht] at hfuel
      cases hfuel
    | succ fuel =>
      cases vs with
      | nil =>
        simp only [itemTokens, List.length_append, List.length_cons, List.length_nil] at hfuel
        have hv := value_tokens hwhole.1 (Nat.le_of_succ_le_succ hfuel) (.closeArray :: rest)
        rw [itemTokens, List.append_assoc]
        exact items_last hv
      | cons w vs =>
        simp only [itemTokens, List.length_append, List.length_cons] at hfuel
        have hlen : v.tokens.length ≤ fuel ∧ (itemTokens (w :: vs)).length ≤ fuel := by omega
        have hv := value_tokens hwhole.1 hlen.1 (.comma :: (itemTokens (w :: vs) ++ rest))
        have hrest := items_tokens (List.cons_ne_nil w vs) hwhole.2 hlen.2 rest
        have hsplit : itemTokens (v :: w :: vs) ++ rest =
            v.tokens ++ .comma :: (itemTokens (w :: vs) ++ rest) := by
          simp [itemTokens]
        rw [hsplit]
        exact items_comma hv hrest

theorem members_tokens {ms : List (Option String × Json)} (hne : ms ≠ [])
    (hms : membersWhole ms = true) {fuel : Nat} (hfuel : (memberTokens ms).length ≤ fuel)
    (rest : List Token) : members fuel (memberTokens ms ++ rest) = (ms, true, rest) := by
  cases ms with
  | nil => exact absurd rfl hne
  | cons m ms =>
    obtain ⟨key, v⟩ := m
    have hwhole : v.isWhole = true ∧ membersWhole ms = true := by simpa [membersWhole] using hms
    cases fuel with
    | zero => cases ms <;> cases hfuel
    | succ fuel =>
      cases ms with
      | nil =>
        simp only [memberTokens, List.length_append, List.length_cons, List.length_nil] at hfuel
        have hlen : v.tokens.length ≤ fuel := by omega
        have hv := value_tokens hwhole.1 hlen (.closeObject :: rest)
        have hsplit : memberTokens [(key, v)] ++ rest =
            .string key :: .colon :: (v.tokens ++ .closeObject :: rest) := by
          simp [memberTokens]
        rw [hsplit]
        exact members_last hv
      | cons m ms =>
        simp only [memberTokens, List.length_append, List.length_cons] at hfuel
        have hlen : v.tokens.length ≤ fuel ∧ (memberTokens (m :: ms)).length ≤ fuel := by omega
        have hv := value_tokens hwhole.1 hlen.1 (.comma :: (memberTokens (m :: ms) ++ rest))
        have hrest := members_tokens (List.cons_ne_nil m ms) hwhole.2 hlen.2 rest
        have hsplit : memberTokens ((key, v) :: m :: ms) ++ rest =
            .string key :: .colon :: (v.tokens ++ .comma :: (memberTokens (m :: ms) ++ rest)) := by
          simp [memberTokens]
        rw [hsplit]
        exact members_comma hv hrest

end

/-- A text of a whole document is read as the document, to its end. -/
theorem Spells.read {v : Json} {text : String} (h : Spells v text) (hv : v.isWhole = true) :
    Json.read text = ⟨v, true⟩ := by
  have happend : v.tokens ++ [] = v.tokens := List.append_nil _
  have hnil : NoNumber [] := by rintro t ⟨⟩
  have hapart : Apart v.tokens := by
    rw [← happend]
    exact apart_tokens v trivial hnil
  have htokens : Token.ofText text = v.tokens := h.scan hapart (Nat.le_refl _)
  have hfuel : v.tokens.length ≤ 2 * v.tokens.length + 1 := by omega
  have hvalue := value_tokens hv hfuel []
  rw [happend] at hvalue
  simp only [Json.read, htokens, hvalue]
  rfl

end FilterQuery.Json
