import FilterQuery.Text.Blank
import Mathlib.Data.List.DropRight

/-!
# Trimmed texts

Trimming takes away blanks at both ends and nothing else, so its result is the one trimmed text that
has only blanks around it.
-/
namespace FilterQuery.Text

/-- There is nothing but blanks. -/
def Blank (cs : List Char) : Prop := ∀ c ∈ cs, isBlank c = true

instance (cs : List Char) : Decidable (Blank cs) := List.decidableBAll _ cs

/-- No blank stands at either end. -/
structure Trimmed (cs : List Char) : Prop where
  first : ∀ c ∈ cs.head?, isBlank c = false
  last : ∀ c ∈ cs.getLast?, isBlank c = false

theorem allBlank_iff {s : String} : allBlank s = true ↔ Blank s.toList := List.all_eq_true

variable {cs ts before after : List Char}

theorem trimChars_eq_rdropWhile (cs : List Char) :
    trimChars cs = (cs.dropWhile isBlank).rdropWhile isBlank := rfl

theorem trimChars_append_left (h : Blank before) : trimChars (before ++ cs) = trimChars cs := by
  rw [trimChars, List.dropWhile_append_of_pos h, trimChars]

theorem trimChars_append_right (h : Blank after) : trimChars (cs ++ after) = trimChars cs := by
  have hreverse : ∀ c ∈ after.reverse, isBlank c = true := fun c hc => h c (List.mem_reverse.mp hc)
  rw [trimChars, trimChars, List.dropWhile_append]
  split
  · next hempty =>
    have hnone : after.dropWhile isBlank = [] := List.dropWhile_eq_nil_iff.mpr h
    rw [hnone, List.isEmpty_iff.mp hempty]
  · rw [List.reverse_append, List.dropWhile_append_of_pos hreverse]

theorem Trimmed.trimChars_eq (h : Trimmed cs) : trimChars cs = cs := by
  have hfirst : cs.dropWhile isBlank = cs := by
    cases cs with
    | nil => rfl
    | cons c cs => simp [h.first c rfl]
  rw [trimChars_eq_rdropWhile, hfirst, List.rdropWhile_eq_self_iff]
  intro hne
  rw [h.last _ (List.getLast?_eq_some_getLast hne)]
  simp

/-- What is taken away is blank. -/
theorem exists_blanks (cs : List Char) :
    ∃ before after, Blank before ∧ Blank after ∧ cs = before ++ trimChars cs ++ after := by
  refine ⟨cs.takeWhile isBlank, (cs.dropWhile isBlank).rtakeWhile isBlank, ?_, ?_, ?_⟩
  · exact fun c hc => List.mem_takeWhile_imp hc
  · exact fun c hc => List.mem_rtakeWhile_imp hc
  · rw [trimChars_eq_rdropWhile, List.append_assoc, List.rdropWhile_append_rtakeWhile,
      List.takeWhile_append_dropWhile]

theorem trimmed_trimChars (cs : List Char) : Trimmed (trimChars cs) := by
  rw [trimChars_eq_rdropWhile]
  constructor
  · intro c hc
    obtain ⟨rest, hrest⟩ := List.rdropWhile_prefix isBlank (cs.dropWhile isBlank)
    have hnot := List.head?_dropWhile_not isBlank cs
    rw [← hrest, List.head?_append, hc] at hnot
    exact hnot
  · intro c hc
    have hne : (cs.dropWhile isBlank).rdropWhile isBlank ≠ [] := by
      intro hnil
      rw [hnil] at hc
      cases hc
    have hlast := List.rdropWhile_last_not isBlank _ hne
    rw [List.getLast?_eq_some_getLast hne] at hc
    cases hc
    simpa using hlast

/-- Trimming gives the one trimmed text that has only blanks around it. -/
theorem trimChars_eq_iff : trimChars cs = ts ↔
    Trimmed ts ∧ ∃ before after, Blank before ∧ Blank after ∧ cs = before ++ ts ++ after := by
  constructor
  · rintro rfl
    exact ⟨trimmed_trimChars cs, exists_blanks cs⟩
  · rintro ⟨htrimmed, before, after, hbefore, hafter, rfl⟩
    rw [trimChars_append_right hafter, trimChars_append_left hbefore, htrimmed.trimChars_eq]

/-- A text is trimmed to what stands from its first to its last character that is no blank. -/
theorem trimChars_around {first last : Char} (hbefore : Blank before) (hafter : Blank after)
    (hfirst : isBlank first = false) (hlast : isBlank last = false) (inner : List Char) :
    trimChars (before ++ first :: (inner ++ last :: after)) = first :: (inner ++ [last]) := by
  have htrimmed : Trimmed (first :: (inner ++ [last])) := by
    constructor
    · simpa using hfirst
    · simpa [List.getLast?_cons] using hlast
  exact trimChars_eq_iff.mpr ⟨htrimmed, before, after, hbefore, hafter, by simp⟩

/-- The second text stands in the first between blanks, and has none at its own ends. -/
structure Padded (s t : String) : Prop where
  trimmed : Trimmed t.toList
  around : ∃ before after, Blank before ∧ Blank after ∧ s.toList = before ++ t.toList ++ after

theorem trim_eq_iff {s t : String} : trim s = t ↔ Padded s t := by
  rw [← String.toList_inj, toList_trim, trimChars_eq_iff]
  exact ⟨fun h => ⟨h.1, h.2⟩, fun h => ⟨h.trimmed, h.around⟩⟩

theorem trimChars_eq_self_iff : trimChars cs = cs ↔ Trimmed cs :=
  ⟨fun h => h ▸ trimmed_trimChars cs, Trimmed.trimChars_eq⟩

theorem trimChars_eq_nil_iff : trimChars cs = [] ↔ Blank cs := by
  constructor
  · intro h
    obtain ⟨before, after, hbefore, hafter, hcs⟩ := exists_blanks cs
    rw [h, List.append_nil] at hcs
    rw [hcs]
    intro c hc
    exact (List.mem_append.mp hc).elim (hbefore c) (hafter c)
  · intro h
    rw [← List.append_nil cs, trimChars_append_left h, trimChars_nil]

theorem Trimmed.trim_eq {s : String} (h : Trimmed s.toList) : trim s = s := by
  rw [trim, h.trimChars_eq, String.ofList_toList]

theorem Padded.subset {s t : String} (h : Padded s t) : t.toList ⊆ s.toList := by
  obtain ⟨before, after, _, _, hs⟩ := h.around
  rw [hs]
  intro c hc
  exact List.mem_append_left _ (List.mem_append_right _ hc)

/-- A text is as blank as what is left of it. -/
theorem Padded.blank_iff {s t : String} (h : Padded s t) : Blank s.toList ↔ Blank t.toList := by
  rw [← trim_eq_iff.mpr h, toList_trim, ← trimChars_eq_nil_iff, ← trimChars_eq_nil_iff,
    (trimmed_trimChars s.toList).trimChars_eq]

/-- What is left begins with the first character that is no blank. -/
theorem head?_trimChars (cs : List Char) :
    (trimChars cs).head? = cs.find? fun c => !isBlank c := by
  rw [List.find?_not_eq_head?_dropWhile, trimChars_eq_rdropWhile]
  obtain ⟨rest, hrest⟩ := List.rdropWhile_prefix isBlank (cs.dropWhile isBlank)
  cases htrim : trimChars cs with
  | nil =>
    have hnone : cs.dropWhile isBlank = [] :=
      List.dropWhile_eq_nil_iff.mpr (trimChars_eq_nil_iff.mp htrim)
    rw [hnone, List.rdropWhile_nil]
  | cons c ts =>
    rw [trimChars_eq_rdropWhile] at htrim
    rw [htrim] at hrest ⊢
    rw [← hrest]
    rfl

end FilterQuery.Text
