import FilterQuery.Json.Numeral
import Mathlib.Data.List.TakeWhile

/-!
# The texts of numerals

JSON's grammar of numerals as a relation, apart from the scanner: a sign, digits without a leading
zero, places after a point and an exponent. The scanner reads exactly what the grammar allows, and
as much of it as it can.
-/
namespace FilterQuery.Json.Numeral

/-- At least one digit. -/
structure IsDigits (ds : List Char) : Prop where
  ne_nil : ds ≠ []
  isDigit : ∀ c ∈ ds, c.isDigit = true

/-- Digits of which a zero in front is the only one. -/
structure IsWhole (ds : List Char) : Prop extends IsDigits ds where
  zero_alone : ∀ rest, ds = '0' :: rest → rest = []

inductive Sign : Bool → List Char → Prop where
  | plus : Sign false []
  | minus : Sign true ['-']

inductive Fraction : Option (List Char) → List Char → Prop where
  | none : Fraction none []
  | places {ds : List Char} (digits : IsDigits ds) : Fraction (some ds) ('.' :: ds)

/-- The factor of an exponent and how it is written: the plus sign may be left out. -/
inductive ExponentSign : Int → List Char → Prop where
  | plain : ExponentSign 1 []
  | plus : ExponentSign 1 ['+']
  | minus : ExponentSign (-1) ['-']

inductive Exponent : Option Int → List Char → Prop where
  | none : Exponent none []
  | mark {e : Char} {factor : Int} {sign ds : List Char} (letter : e = 'e' ∨ e = 'E')
      (signed : ExponentSign factor sign) (digits : IsDigits ds) :
      Exponent (some (factor * ofDigits ds)) (e :: (sign ++ ds))

/-- A numeral and a text of it. -/
inductive Written : Numeral → List Char → Prop where
  | mk {negative : Bool} {whole : List Char} {fraction : Option (List Char)} {exponent : Option Int}
      {sign places power : List Char} (signed : Sign negative sign) (digits : IsWhole whole)
      (point : Fraction fraction places) (mark : Exponent exponent power) :
      Written ⟨negative, whole, fraction, exponent⟩ (sign ++ whole ++ places ++ power)

/-- A text that does not begin with a digit. -/
def NoDigit (cs : List Char) : Prop := ∀ c ∈ cs.head?, c.isDigit = false

/-- A text that does not go on with a numeral. -/
def Ends (cs : List Char) : Prop := ∀ c ∈ cs.head?, c.isDigit = false ∧ c ≠ '.' ∧ c ≠ 'e' ∧ c ≠ 'E'

theorem Ends.noDigit {cs : List Char} (h : Ends cs) : NoDigit cs := fun c hc => (h c hc).1

theorem noDigit_cons {c : Char} (h : c.isDigit = false) (cs : List Char) : NoDigit (c :: cs) := by
  intro d hd
  obtain rfl : c = d := by simpa using hd
  exact h

theorem someDigits_append {ds rest : List Char} (h : IsDigits ds) (hrest : NoDigit rest) :
    someDigits (ds ++ rest) = some (ds, rest) := by
  have htake : rest.takeWhile Char.isDigit = [] := by
    cases rest with
    | nil => rfl
    | cons c cs => simp [hrest c rfl]
  have hdrop : rest.dropWhile Char.isDigit = rest := by
    cases rest with
    | nil => rfl
    | cons c cs => simp [hrest c rfl]
  have hfound : (ds ++ rest).takeWhile Char.isDigit = ds := by
    rw [List.takeWhile_append_of_pos h.isDigit, htake, List.append_nil]
  have hleft : (ds ++ rest).dropWhile Char.isDigit = rest := by
    rw [List.dropWhile_append_of_pos h.isDigit, hdrop]
  obtain ⟨d, ds', rfl⟩ := List.exists_cons_of_ne_nil h.ne_nil
  rw [someDigits, hfound, hleft]

theorem scanWhole_append {ds rest : List Char} (h : IsWhole ds) (hrest : NoDigit rest) :
    scanWhole (ds ++ rest) = some (ds, rest) := by
  rw [scanWhole, someDigits_append h.toIsDigits hrest]
  rcases ds with _ | ⟨d, _ | ⟨d', ds⟩⟩
  · rfl
  · simp
  · have hd : d ≠ '0' := by
      rintro rfl
      have hrest := h.zero_alone (d' :: ds) rfl
      cases hrest
    simp [hd]

theorem scanFraction_append {fraction : Option (List Char)} {places rest : List Char}
    (h : Fraction fraction places) (hrest : ∀ c ∈ rest.head?, c.isDigit = false ∧ c ≠ '.') :
    scanFraction (places ++ rest) = some (fraction, rest) := by
  cases h with
  | none =>
    cases rest with
    | nil => rfl
    | cons c cs =>
      have hc := (hrest c rfl).2
      simp [scanFraction, hc]
  | places digits =>
    have hscan := someDigits_append digits fun c hc => (hrest c hc).1
    simp [scanFraction, hscan]

theorem scanExponent_append {exponent : Option Int} {power rest : List Char}
    (h : Exponent exponent power) (hrest : Ends rest) :
    scanExponent (power ++ rest) = some (exponent, rest) := by
  cases h with
  | none =>
    cases rest with
    | nil => rfl
    | cons c cs =>
      obtain ⟨_, _, he, hE⟩ := hrest c rfl
      simp [scanExponent, he, hE]
  | @mark e factor sign ds letter signed digits =>
    have hscan := someDigits_append digits hrest.noDigit
    have hletter : (decide (e = 'e') || decide (e = 'E')) = true := by simpa using letter
    cases signed with
    | minus => simp [scanExponent, hletter, hscan]
    | plus => simp [scanExponent, hletter, hscan]
    | plain =>
      obtain ⟨d, ds', rfl⟩ := List.exists_cons_of_ne_nil digits.ne_nil
      have hd := digits.isDigit d List.mem_cons_self
      have hminus : d ≠ '-' := by rintro rfl; cases hd
      have hplus : d ≠ '+' := by rintro rfl; cases hd
      simp only [List.cons_append] at hscan
      simp [scanExponent, hletter, hminus, hplus, hscan]

/-- What may stand after the places of a numeral. -/
theorem Exponent.head {exponent : Option Int} {power rest : List Char} (h : Exponent exponent power)
    (hrest : Ends rest) : ∀ c ∈ (power ++ rest).head?, c.isDigit = false ∧ c ≠ '.' := by
  intro c hc
  cases h with
  | none => exact ⟨(hrest c hc).1, (hrest c hc).2.1⟩
  | mark letter _ _ =>
    simp only [List.cons_append, List.head?_cons, Option.mem_some_iff] at hc
    subst hc
    rcases letter with rfl | rfl <;> decide

/-- A numeral is scanned to its end if what follows does not go on with it. -/
theorem Written.scan_append {n : Numeral} {cs rest : List Char} (h : Written n cs)
    (hrest : Ends rest) : scan (cs ++ rest) = some (n, rest) := by
  obtain @⟨negative, whole, fraction, exponent, sign, places, power, signed, digits, point, mark⟩ := h
  have hpower := mark.head hrest
  have hplaces : NoDigit (places ++ (power ++ rest)) := by
    cases point with
    | none => exact fun c hc => (hpower c hc).1
    | places _ => exact noDigit_cons rfl _
  have hwhole := scanWhole_append digits hplaces
  have hfraction := scanFraction_append point hpower
  have hexponent := scanExponent_append mark hrest
  cases signed with
  | minus =>
    simp [scan, hwhole, hfraction, hexponent]
  | plus =>
    obtain ⟨d, ds, rfl⟩ := List.exists_cons_of_ne_nil digits.ne_nil
    have hd := digits.isDigit d List.mem_cons_self
    have hminus : d ≠ '-' := by rintro rfl; cases hd
    simp only [List.cons_append] at hwhole
    simp [scan, hminus, hwhole, hfraction, hexponent]

theorem someDigits_eq_some {cs ds rest : List Char} (h : someDigits cs = some (ds, rest)) :
    IsDigits ds ∧ cs = ds ++ rest := by
  have hsplit : cs.takeWhile Char.isDigit ++ cs.dropWhile Char.isDigit = cs :=
    List.takeWhile_append_dropWhile
  have hdigits : ∀ c ∈ cs.takeWhile Char.isDigit, c.isDigit = true :=
    fun c hc => List.mem_takeWhile_imp hc
  unfold someDigits at h
  generalize cs.takeWhile Char.isDigit = taken at h hsplit hdigits
  cases taken with
  | nil => cases h
  | cons d ds' =>
    simp only [Option.some.injEq, Prod.mk.injEq] at h
    obtain ⟨rfl, rfl⟩ := h
    exact ⟨⟨List.cons_ne_nil d ds', hdigits⟩, hsplit.symm⟩

theorem scanWhole_eq_some {cs ds rest : List Char} (h : scanWhole cs = some (ds, rest)) :
    IsWhole ds ∧ cs = ds ++ rest := by
  unfold scanWhole at h
  split at h
  · cases h
  · rename_i hzero
    obtain ⟨hdigits, hcs⟩ := someDigits_eq_some h
    refine ⟨⟨hdigits, ?_⟩, hcs⟩
    rintro tail rfl
    cases tail with
    | nil => rfl
    | cons d tail => exact absurd h (hzero d tail rest)

theorem scanFraction_eq_some {cs rest : List Char} {fraction : Option (List Char)}
    (h : scanFraction cs = some (fraction, rest)) :
    ∃ places, Fraction fraction places ∧ cs = places ++ rest := by
  unfold scanFraction at h
  split at h
  · obtain ⟨⟨ds, left⟩, hds, hpair⟩ := Option.map_eq_some_iff.mp h
    obtain ⟨rfl, rfl⟩ := Prod.mk.inj hpair
    obtain ⟨hdigits, rfl⟩ := someDigits_eq_some hds
    exact ⟨'.' :: ds, .places hdigits, rfl⟩
  · obtain ⟨rfl, rfl⟩ := Prod.mk.inj (Option.some.inj h)
    exact ⟨[], .none, rfl⟩

theorem scanExponent_eq_some {cs rest : List Char} {exponent : Option Int}
    (h : scanExponent cs = some (exponent, rest)) :
    ∃ power, Exponent exponent power ∧ cs = power ++ rest := by
  cases cs with
  | nil =>
    obtain ⟨rfl, rfl⟩ := Prod.mk.inj (Option.some.inj h)
    exact ⟨[], .none, rfl⟩
  | cons c cs =>
    by_cases hc : (decide (c = 'e') || decide (c = 'E')) = true
    · have hletter : c = 'e' ∨ c = 'E' := by simpa using hc
      simp only [scanExponent, hc, if_true] at h
      split at h
      all_goals
        obtain ⟨⟨ds, left⟩, hds, hpair⟩ := Option.map_eq_some_iff.mp h
        obtain ⟨rfl, rfl⟩ := Prod.mk.inj hpair
        obtain ⟨hdigits, hcs⟩ := someDigits_eq_some hds
      · exact ⟨_, .mark hletter .minus hdigits, congrArg (c :: '-' :: ·) hcs⟩
      · exact ⟨_, .mark hletter .plus hdigits, congrArg (c :: '+' :: ·) hcs⟩
      · exact ⟨_, .mark hletter .plain hdigits, congrArg (c :: ·) hcs⟩
    · simp only [scanExponent, hc] at h
      obtain ⟨rfl, rfl⟩ := Prod.mk.inj (Option.some.inj h)
      exact ⟨[], .none, rfl⟩

/-- What the scanner does after the sign. -/
def scanUnsigned (negative : Bool) (cs : List Char) : Option (Numeral × List Char) := do
  let (whole, cs) ← scanWhole cs
  let (fraction, cs) ← scanFraction cs
  let (exponent, cs) ← scanExponent cs
  pure (⟨negative, whole, fraction, exponent⟩, cs)

/-- What is scanned is a text of the numeral, and nothing else is taken. -/
theorem written_of_scan {n : Numeral} {cs rest : List Char} (h : scan cs = some (n, rest)) :
    ∃ text, Written n text ∧ cs = text ++ rest := by
  obtain ⟨negative, sign, body, hsign, hcs, hbody⟩ : ∃ negative sign body,
      Sign negative sign ∧ cs = sign ++ body ∧ scanUnsigned negative body = some (n, rest) := by
    cases cs with
    | nil => exact ⟨false, [], [], .plus, rfl, h⟩
    | cons c body =>
      by_cases hc : c = '-'
      · subst hc
        exact ⟨true, ['-'], body, .minus, rfl, h⟩
      · refine ⟨false, [], c :: body, .plus, rfl, ?_⟩
        simpa [scan, scanUnsigned, hc] using h
  unfold scanUnsigned at hbody
  simp only [Option.bind_eq_bind, Option.bind_eq_some_iff, Prod.exists] at hbody
  obtain ⟨whole, cs₁, hwhole, fraction, cs₂, hfraction, exponent, cs₃, hexponent, hn⟩ := hbody
  obtain ⟨rfl, rfl⟩ := Prod.mk.inj (Option.some.inj hn)
  obtain ⟨hdigits, rfl⟩ := scanWhole_eq_some hwhole
  obtain ⟨places, hpoint, rfl⟩ := scanFraction_eq_some hfraction
  obtain ⟨power, hmark, rfl⟩ := scanExponent_eq_some hexponent
  refine ⟨_, .mk hsign hdigits hpoint hmark, ?_⟩
  simp [hcs]

theorem digitChars_eq_zero_cons {n : Nat} {rest : List Char} (h : digitChars n = '0' :: rest) :
    n = 0 := by
  induction n using Nat.strongRecOn generalizing rest with
  | ind n ih =>
    by_cases hn : n < 10
    · rw [digitChars, Nat.toDigits_of_lt_base hn] at h
      exact Nat.digitChar_eq_zero.mp (List.cons.inj h).1
    · have hdigits : digitChars n = digitChars (n / 10) ++ [Nat.digitChar (n % 10)] :=
        Nat.toDigits_of_base_le (by decide) (by omega)
      obtain ⟨d, ds, hd⟩ := List.exists_cons_of_ne_nil (Nat.toDigits_ne_nil (n := n / 10) (b := 10))
      rw [hdigits, digitChars, hd] at h
      obtain rfl := (List.cons.inj h).1
      have hzero := ih (n / 10) (by omega) hd
      omega

theorem isWhole_digitChars (n : Nat) : IsWhole (digitChars n) := by
  refine ⟨⟨Nat.toDigits_ne_nil, fun c hc => ?_⟩, fun rest h => ?_⟩
  · exact Nat.isDigit_of_mem_toDigits (by decide) (by decide) hc
  · obtain rfl := digitChars_eq_zero_cons h
    exact (List.cons.inj h).2.symm

theorem ofDigits_digitChars (n : Nat) : ofDigits (digitChars n) = n := Nat.ofDigitChars_ten_toDigits

/-- Digits alone are a numeral without places and without an exponent. -/
theorem written_digitChars {negative : Bool} {sign : List Char} (h : Sign negative sign) (n : Nat) :
    Written ⟨negative, digitChars n, none, none⟩ (sign ++ digitChars n) := by
  simpa using Written.mk h (isWhole_digitChars n) .none .none

end FilterQuery.Json.Numeral
