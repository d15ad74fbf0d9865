import FilterQuery.Proofs.Json.Numeral

/-!
# What numerals denote

Which number a numeral is read as, told apart from the reader. An integer in range is denoted as it
is. Of any other number the digits count as far as 64 bits hold them. Main statement: the reader
gives the number that a numeral denotes, and each numeral denotes one.
-/
namespace FilterQuery.Decimal

/-- A number times a power of ten, or over one, by 308 places at once. Zero stays zero. -/
inductive Scaled : Float → Int → Float → Prop where
  | product {x : Float} {places : Nat} (few : places ≤ 308) :
      Scaled x places (x * powerOfTen places)
  | quotient {x : Float} {places : Nat} (positive : 0 < places) (few : places ≤ 308) :
      Scaled x (-places) (x / powerOfTen places)
  | zero {x : Float} {exponent : Int} (many : 308 < exponent.natAbs) (zero : (x == 0) = true) :
      Scaled x exponent x
  | beyond {x : Float} {places : Nat} (many : 308 < places) (nonzero : ¬ (x == 0) = true) :
      Scaled x places (1 / 0)
  | again {x y : Float} {places : Nat} (many : 308 < places) (nonzero : ¬ (x == 0) = true)
      (rest : Scaled (x / powerOfTen 308) (-(places - 308 : Nat)) y) : Scaled x (-places) y

/-- The product or quotient as it is computed. -/
def scaled (x : Float) (exponent : Int) : Float :=
  if 0 ≤ exponent then raised x exponent.toNat else lowered x (-exponent).toNat

theorem approximate_eq (d : Decimal) :
    d.approximate = scaled (toFloat ⟨d.digits, 0⟩) d.exponent := rfl

theorem scaled_natural (x : Float) (places : Nat) : scaled x places = raised x places := by
  rw [scaled, if_pos (Int.natCast_nonneg places), Int.toNat_natCast]

theorem scaled_negative (x : Float) {places : Nat} (h : 0 < places) :
    scaled x (-places) = lowered x places := by
  rw [scaled, if_neg (by omega), Int.neg_neg, Int.toNat_natCast]

theorem Scaled.eq {x y : Float} {exponent : Int} (h : Scaled x exponent y) :
    scaled x exponent = y := by
  induction h with
  | product few => rw [scaled_natural, raised, if_pos few]
  | quotient positive few => rw [scaled_negative _ positive, lowered, if_pos few]
  | @zero x exponent many zero =>
    rcases Int.eq_nat_or_neg exponent with ⟨places, rfl | rfl⟩
    · rw [scaled_natural, raised, if_neg (by omega), if_pos zero]
    · rw [scaled_negative _ (by omega), lowered, if_neg (by omega), if_pos zero]
  | beyond many nonzero => rw [scaled_natural, raised, if_neg (by omega), if_neg nonzero]
  | again many nonzero _ ih =>
    rw [scaled_negative _ (by omega)] at ih ⊢
    rw [lowered, if_neg (by omega), if_neg nonzero, ih]

theorem exists_scaled_negative (x : Float) {places : Nat} (h : 0 < places) :
    ∃ y, Scaled x (-places) y := by
  induction places using Nat.strongRecOn generalizing x with
  | ind places ih =>
    by_cases hfew : places ≤ 308
    · exact ⟨_, .quotient h hfew⟩
    · by_cases hzero : (x == 0) = true
      · exact ⟨_, .zero (by omega) hzero⟩
      · obtain ⟨y, hy⟩ := ih (places - 308) (by omega) (x / powerOfTen 308) (by omega)
        exact ⟨y, .again (by omega) hzero hy⟩

theorem exists_scaled (x : Float) (exponent : Int) : ∃ y, Scaled x exponent y := by
  by_cases hsign : exponent < 0
  · obtain ⟨places, rfl⟩ : ∃ places : Nat, exponent = -places := ⟨exponent.natAbs, by omega⟩
    exact exists_scaled_negative x (by omega)
  · obtain ⟨places, rfl⟩ := Int.eq_ofNat_of_zero_le (by omega : 0 ≤ exponent)
    by_cases hfew : places ≤ 308
    · exact ⟨_, .product hfew⟩
    · by_cases hzero : (x == 0) = true
      · exact ⟨_, .zero (by omega) hzero⟩
      · exact ⟨_, .beyond (by omega) hzero⟩

end FilterQuery.Decimal

namespace FilterQuery.Json.Numeral

open Decimal (Scaled)

/-- Of the digits `cs`, those that fit into 64 bits together with the digits before them. -/
structure Takes (before cs taken left : List Char) : Prop where
  split : cs = taken ++ left
  fits : ofDigits (before ++ taken) < 0x10000000000000000
  full : ∀ c ∈ left.head?, 0x10000000000000000 ≤ ofDigits (before ++ taken ++ [c])

/-- The magnitude in 64 bits. Each digit before the point that is left moves the point by a place. -/
inductive Magnitude (n : Numeral) : Decimal → Prop where
  | mk {taken beyond read unread : List Char} (first : Takes [] n.whole taken beyond)
      (later : Takes taken (n.fraction.getD []) read unread) :
      Magnitude n ⟨ofDigits (taken ++ read), n.exponent.getD 0 + beyond.length - read.length⟩

/-- An integer of 64 bits, with a sign if it is negative. Zero has no sign. -/
inductive DenotesInteger (n : Numeral) : Int → Prop where
  | natural (point : n.fraction = none) (mark : n.exponent = none) (sign : n.negative = false)
      (small : ofDigits n.whole < 0x10000000000000000) : DenotesInteger n (ofDigits n.whole)
  | negative (point : n.fraction = none) (mark : n.exponent = none) (sign : n.negative = true)
      (nonzero : 0 < ofDigits n.whole) (small : ofDigits n.whole ≤ 0x8000000000000000) :
      DenotesInteger n (-ofDigits n.whole)

/-- The magnitude as a floating-point number, with the sign: the digits and the power of ten are
rounded, and then their product or quotient. -/
inductive DenotesFloat (n : Numeral) : Float → Prop where
  | plus {d : Decimal} {x : Float} (sign : n.negative = false) (magnitude : Magnitude n d)
      (scaled : Scaled (Decimal.toFloat ⟨d.digits, 0⟩) d.exponent x) : DenotesFloat n x
  | minus {d : Decimal} {x : Float} (sign : n.negative = true) (magnitude : Magnitude n d)
      (scaled : Scaled (Decimal.toFloat ⟨d.digits, 0⟩) d.exponent x) : DenotesFloat n (-x)

/-- The number of a numeral: an integer if it can be one. -/
inductive Denotes (n : Numeral) : Number → Prop where
  | integer {i : Int} (means : DenotesInteger n i) : Denotes n (.integer i)
  | float {x : Float} (noInteger : ∀ i, ¬ DenotesInteger n i) (means : DenotesFloat n x)
      (finite : x.isFinite = true) : Denotes n (.float x)
  | overflow {x : Float} (noInteger : ∀ i, ¬ DenotesInteger n i) (means : DenotesFloat n x)
      (infinite : ¬ x.isFinite = true) : Denotes n .overflow

theorem ofDigits_concat (ds : List Char) (c : Char) :
    ofDigits (ds ++ [c]) = 10 * ofDigits ds + (c.toNat - 48) := by
  simp [ofDigits]

theorem ofDigits_le_append (ds es : List Char) : ofDigits ds ≤ ofDigits (ds ++ es) := by
  induction es generalizing ds with
  | nil => rw [List.append_nil]
  | cons c es ih =>
    have hstep : ofDigits ds ≤ ofDigits (ds ++ [c]) := by
      rw [ofDigits_concat]
      omega
    rw [List.append_cons]
    exact hstep.trans (ih (ds ++ [c]))

/-- One digit more where it fits. -/
theorem gather_of_lt {before : List Char} {c : Char}
    (h : ofDigits (before ++ [c]) < 0x10000000000000000) (cs : List Char) :
    gather (ofDigits before) (c :: cs) = gather (ofDigits (before ++ [c])) cs := by
  rw [ofDigits_concat] at h ⊢
  exact if_pos h

theorem gather_of_le {before : List Char} {c : Char}
    (h : 0x10000000000000000 ≤ ofDigits (before ++ [c])) (cs : List Char) :
    gather (ofDigits before) (c :: cs) = (ofDigits before, c :: cs) := by
  rw [ofDigits_concat] at h
  exact if_neg (Nat.not_lt_of_le h)

theorem Takes.gather_eq {before cs taken left : List Char} (h : Takes before cs taken left) :
    gather (ofDigits before) cs = (ofDigits (before ++ taken), left) := by
  obtain ⟨rfl, hfits, hfull⟩ := h
  induction taken generalizing before with
  | nil =>
    rw [List.append_nil] at hfull ⊢
    cases left with
    | nil => rfl
    | cons c left => exact gather_of_le (hfull c rfl) left
  | cons c taken ih =>
    rw [List.append_cons] at hfits hfull ⊢
    have hnext := Nat.lt_of_le_of_lt (ofDigits_le_append (before ++ [c]) taken) hfits
    rw [List.cons_append, gather_of_lt hnext, ih hfits hfull]

theorem exists_takes {before : List Char} (hbefore : ofDigits before < 0x10000000000000000)
    (cs : List Char) : ∃ taken left, Takes before cs taken left := by
  induction cs generalizing before with
  | nil => exact ⟨[], [], rfl, by rwa [List.append_nil], fun c hc => by cases hc⟩
  | cons c cs ih =>
    by_cases hnext : ofDigits (before ++ [c]) < 0x10000000000000000
    · obtain ⟨taken, left, hsplit, hfits, hfull⟩ := ih hnext
      rw [← List.append_cons] at hfits hfull
      exact ⟨c :: taken, left, congrArg (c :: ·) hsplit, hfits, hfull⟩
    · refine ⟨[], c :: cs, rfl, by rwa [List.append_nil], fun d hd => ?_⟩
      obtain rfl : c = d := by simpa using hd
      rw [List.append_nil]
      exact Nat.le_of_not_lt hnext

theorem Magnitude.magnitude_eq {n : Numeral} {d : Decimal} (h : Magnitude n d) :
    n.magnitude = d := by
  obtain @⟨taken, beyond, read, unread, hfirst, hlater⟩ := h
  have hwhole : gather 0 n.whole = (ofDigits ([] ++ taken), beyond) := hfirst.gather_eq
  have hread : (n.fraction.getD []).length - unread.length = read.length := by
    rw [hlater.split, List.length_append, Nat.add_sub_cancel]
  simp only [magnitude, hwhole, List.nil_append, hlater.gather_eq, hread]

theorem exists_magnitude (n : Numeral) : ∃ d, Magnitude n d := by
  have hnil : ofDigits [] < 0x10000000000000000 := by decide
  obtain ⟨taken, beyond, hfirst⟩ := exists_takes hnil n.whole
  obtain ⟨read, unread, hlater⟩ := exists_takes hfirst.fits (n.fraction.getD [])
  exact ⟨_, .mk hfirst hlater⟩

theorem isPlain_iff {n : Numeral} : n.isPlain = true ↔ n.fraction = none ∧ n.exponent = none := by
  simp [isPlain]

theorem DenotesInteger.value_eq {n : Numeral} {i : Int} (h : DenotesInteger n i) :
    n.value = .integer i := by
  cases h with
  | natural point mark sign small => simp [value, isPlain_iff.mpr ⟨point, mark⟩, sign, small]
  | negative point mark sign nonzero small =>
    simp [value, isPlain_iff.mpr ⟨point, mark⟩, sign, nonzero, small]

/-- What denotes no integer is read as its magnitude. -/
theorem value_of_noInteger {n : Numeral} (h : ∀ i, ¬ DenotesInteger n i) :
    n.value = .ofMagnitude n.negative n.magnitude.approximate := by
  simp only [value]
  split
  · next hnatural =>
    simp only [Bool.and_eq_true, isPlain_iff, Bool.not_eq_true', decide_eq_true_eq] at hnatural
    obtain ⟨⟨⟨point, mark⟩, sign⟩, small⟩ := hnatural
    exact absurd (.natural point mark sign small) (h _)
  · split
    · next hnegative =>
      simp only [Bool.and_eq_true, isPlain_iff, decide_eq_true_eq] at hnegative
      obtain ⟨⟨⟨⟨point, mark⟩, sign⟩, nonzero⟩, small⟩ := hnegative
      exact absurd (.negative point mark sign nonzero small) (h _)
    · rfl

theorem DenotesFloat.ofMagnitude_eq {n : Numeral} {x : Float} (h : DenotesFloat n x) :
    Number.ofMagnitude n.negative n.magnitude.approximate =
      if x.isFinite then .float x else .overflow := by
  cases h with
  | plus sign magnitude scaled =>
    rw [Decimal.approximate_eq, magnitude.magnitude_eq, scaled.eq, sign]
    rfl
  | minus sign magnitude scaled =>
    rw [Decimal.approximate_eq, magnitude.magnitude_eq, scaled.eq, sign]
    rfl

theorem exists_denotesFloat (n : Numeral) : ∃ x, DenotesFloat n x := by
  obtain ⟨d, hd⟩ := exists_magnitude n
  obtain ⟨x, hx⟩ := Decimal.exists_scaled (Decimal.toFloat ⟨d.digits, 0⟩) d.exponent
  cases hsign : n.negative with
  | false => exact ⟨_, .plus hsign hd hx⟩
  | true => exact ⟨_, .minus hsign hd hx⟩

theorem Denotes.value_eq {n : Numeral} {x : Number} (h : n.Denotes x) : n.value = x := by
  cases h with
  | integer means => exact means.value_eq
  | float noInteger means finite =>
    rw [value_of_noInteger noInteger, means.ofMagnitude_eq, if_pos finite]
  | overflow noInteger means infinite =>
    rw [value_of_noInteger noInteger, means.ofMagnitude_eq, if_neg infinite]

theorem exists_denotes (n : Numeral) : ∃ x, n.Denotes x := by
  by_cases hinteger : ∃ i, DenotesInteger n i
  · obtain ⟨i, hi⟩ := hinteger
    exact ⟨_, .integer hi⟩
  · have hnone : ∀ i, ¬ DenotesInteger n i := fun i hi => hinteger ⟨i, hi⟩
    obtain ⟨x, hx⟩ := exists_denotesFloat n
    by_cases hfinite : x.isFinite = true
    · exact ⟨_, .float hnone hx hfinite⟩
    · exact ⟨_, .overflow hnone hx hfinite⟩

/-- The number of a numeral is the one that it denotes. -/
theorem value_eq_iff {n : Numeral} {x : Number} : n.value = x ↔ n.Denotes x := by
  constructor
  · rintro rfl
    obtain ⟨x, hx⟩ := n.exists_denotes
    rw [hx.value_eq]
    exact hx
  · exact Denotes.value_eq

-- The digits of the first do not fit into 53 bits. The power of the second is rounded up.
example : value ⟨false, "100".toList, some "00000000000001".toList, none⟩ = .float 100 := by
  decide +kernel

example : value ⟨false, "1".toList, some "7976931348623158".toList, some 308⟩ = .overflow := by
  decide +kernel

theorem denotes_digits {n : Nat} (h : n < 0x10000000000000000) :
    Denotes ⟨false, digitChars n, none, none⟩ (.integer n) := by
  have hdigits := ofDigits_digitChars n
  have hmeans := DenotesInteger.natural (n := ⟨false, digitChars n, none, none⟩) rfl rfl rfl
    (hdigits.trans_lt h)
  rw [hdigits] at hmeans
  exact .integer hmeans

theorem denotes_minus_digits {n : Nat} (hpos : 0 < n) (h : n ≤ 0x8000000000000000) :
    Denotes ⟨true, digitChars n, none, none⟩ (.integer (-n)) := by
  have hdigits := ofDigits_digitChars n
  have hmeans := DenotesInteger.negative (n := ⟨true, digitChars n, none, none⟩) rfl rfl rfl
    (hpos.trans_eq hdigits.symm) (hdigits.trans_le h)
  rw [hdigits] at hmeans
  exact .integer hmeans

/-- An integer in range is written as a numeral that denotes it. -/
theorem exists_written_integerChars {i : Int} (h : -0x8000000000000000 ≤ i)
    (h' : i < 0x10000000000000000) :
    ∃ n : Numeral, n.Written (integerChars i) ∧ n.Denotes (.integer i) := by
  by_cases hi : i < 0
  · refine ⟨⟨true, digitChars i.natAbs, none, none⟩, ?_, ?_⟩
    · rw [integerChars, if_pos hi]
      exact written_digitChars .minus i.natAbs
    · have habs : -(i.natAbs : Int) = i := by omega
      have hmeans := denotes_minus_digits (n := i.natAbs) (by omega) (by omega)
      rwa [habs] at hmeans
  · refine ⟨⟨false, digitChars i.natAbs, none, none⟩, ?_, ?_⟩
    · rw [integerChars, if_neg hi]
      exact written_digitChars .plus i.natAbs
    · have habs : (i.natAbs : Int) = i := by omega
      have hmeans := denotes_digits (n := i.natAbs) (by omega)
      rwa [habs] at hmeans

end FilterQuery.Json.Numeral
