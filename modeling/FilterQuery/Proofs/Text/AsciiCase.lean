import FilterQuery.Text.AsciiCase
import FilterQuery.Proofs.Text.Blank
import Mathlib

/-!
# Texts that differ in case

Folding the case of ASCII letters gives the same text exactly for texts that agree but for the case
of such letters. No letter is a blank, so folding and trimming do not disturb each other.
-/
namespace FilterQuery.Text

/-- The same character, or the same ASCII letter in the other case. The small form of a letter
stands 32 places after the capital one. -/
inductive SameButCase : Char → Char → Prop where
  | same (c : Char) : SameButCase c c
  | raised {small capital : Char} (letter : capital.isUpper = true)
      (place : small.toNat = capital.toNat + 32) : SameButCase small capital
  | lowered {capital small : Char} (letter : capital.isUpper = true)
      (place : small.toNat = capital.toNat + 32) : SameButCase capital small

theorem isUpper_iff {c : Char} : c.isUpper = true ↔ 65 ≤ c.toNat ∧ c.toNat ≤ 90 := by
  simp [Char.isUpper, UInt32.le_iff_toNat_le]

theorem isLower_iff {c : Char} : c.isLower = true ↔ 97 ≤ c.toNat ∧ c.toNat ≤ 122 := by
  simp [Char.isLower, UInt32.le_iff_toNat_le]

theorem toNat_toUpper (c : Char) :
    c.toUpper.toNat = if 97 ≤ c.toNat ∧ c.toNat ≤ 122 then c.toNat - 32 else c.toNat := by
  split
  · next h =>
    have hvalid : (c.toNat - 32).isValidChar := .inl (by omega)
    rw [Char.toUpper_eq_of_isLower (isLower_iff.mpr h), Char.toNat_ofNat, if_pos hvalid]
  · next h => rw [Char.toUpper_eq_of_not_isLower (mt isLower_iff.mp h)]

theorem sameButCase_iff {c d : Char} : SameButCase c d ↔ c.toUpper = d.toUpper := by
  rw [← Char.toNat_inj, toNat_toUpper, toNat_toUpper]
  constructor
  · intro h
    cases h with
    | same => rfl
    | raised hletter hplace =>
      rw [isUpper_iff] at hletter
      rw [if_pos (by omega), if_neg (by omega), hplace, Nat.add_sub_cancel]
    | lowered hletter hplace =>
      rw [isUpper_iff] at hletter
      rw [if_neg (by omega), if_pos (by omega), hplace, Nat.add_sub_cancel]
  · intro h
    split at h
    · split at h
      · obtain rfl : c = d := Char.toNat_inj.mp (by omega)
        exact .same c
      · exact .raised (isUpper_iff.mpr (by omega)) (by omega)
    · split at h
      · exact .lowered (isUpper_iff.mpr (by omega)) (by omega)
      · obtain rfl : c = d := Char.toNat_inj.mp h
        exact .same c

theorem forall₂_sameButCase_iff {cs ds : List Char} :
    List.Forall₂ SameButCase cs ds ↔ cs.map Char.toUpper = ds.map Char.toUpper := by
  simp only [← List.forall₂_eq_eq_eq, List.forall₂_map_left_iff, List.forall₂_map_right_iff,
    ← sameButCase_iff]

/-- What is no letter has one form only. -/
theorem SameButCase.eq_of_not_isAlpha {c d : Char} (h : SameButCase c d)
    (hd : d.isAlpha = false) : c = d := by
  rw [Char.isAlpha, Bool.or_eq_false_iff, Bool.eq_false_iff, Bool.eq_false_iff] at hd
  cases h with
  | same => rfl
  | raised hletter _ => exact absurd hletter hd.1
  | lowered hletter hplace =>
    rw [isUpper_iff] at hletter
    exact absurd (isLower_iff.mpr (by omega)) hd.2

theorem isBlank_toUpper (c : Char) : isBlank c.toUpper = isBlank c := by
  rw [Bool.eq_iff_iff]
  simp only [isBlank, toNat_toUpper, Bool.or_eq_true, Bool.and_eq_true, decide_eq_true_eq,
    beq_iff_eq]
  split <;> omega

theorem trimChars_map_toUpper (cs : List Char) :
    trimChars (cs.map Char.toUpper) = (trimChars cs).map Char.toUpper := by
  have hblank : isBlank ∘ Char.toUpper = isBlank := funext isBlank_toUpper
  rw [trimChars, List.dropWhile_map, hblank, ← List.map_reverse, List.dropWhile_map, hblank,
    ← List.map_reverse, trimChars]

end FilterQuery.Text
