import FilterQuery.Text.Quoted
import Mathlib.Data.List.Basic

/-!
# Pieces of a text

Cutting a text at every occurrence of a mark, as lines are cut at line feeds and lists at commas.
-/
namespace FilterQuery.Text

def lines (s : String) : List (List Char) := s.toList.splitOn '\n'

variable {α : Type} [DecidableEq α] {mark : α}

/-- No piece contains the mark. -/
theorem not_mem_of_mem_splitOn {cs piece : List α} (h : piece ∈ cs.splitOn mark) : mark ∉ piece := by
  induction cs generalizing piece with
  | nil =>
    rw [List.splitOn_nil, List.mem_singleton] at h
    rw [h]
    exact List.not_mem_nil
  | cons c cs ih =>
    rw [List.splitOn_cons_eq_if_modifyHead] at h
    split at h
    · rcases List.mem_cons.mp h with rfl | h
      · exact List.not_mem_nil
      · exact ih h
    · next hc =>
      obtain ⟨first, rest, hcs⟩ := List.exists_cons_of_ne_nil (List.splitOn_ne_nil mark cs)
      rw [hcs] at h ih
      rw [List.modifyHead_cons] at h
      rcases List.mem_cons.mp h with rfl | h
      · have hfirst : mark ∉ first := ih List.mem_cons_self
        have hne : mark ≠ c := fun heq => hc (by simp [heq])
        simp [hne, hfirst]
      · exact ih (List.mem_cons_of_mem _ h)

/-- There is one piece more than there are marks. -/
theorem length_splitOn (cs : List α) : (cs.splitOn mark).length = cs.count mark + 1 := by
  induction cs with
  | nil => rfl
  | cons c cs ih =>
    rw [List.splitOn_cons_eq_if_modifyHead, List.count_cons]
    split
    · rw [List.length_cons, ih]
    · rw [List.length_modifyHead, ih, Nat.add_zero]

theorem splitOn_append_flatMap (cs : List α) (pieces : List (List α)) :
    (cs ++ pieces.flatMap (mark :: ·)).splitOn mark =
      cs.splitOn mark ++ pieces.flatMap (List.splitOn mark) := by
  induction pieces generalizing cs with
  | nil => simp
  | cons piece pieces ih =>
    rw [List.flatMap_cons, List.cons_append, List.splitOn_append_cons_self, ih, List.flatMap_cons]

theorem flatMap_splitOn_eq_self_iff {pieces : List (List α)} :
    pieces.flatMap (List.splitOn mark) = pieces ↔ ∀ piece ∈ pieces, mark ∉ piece := by
  constructor
  · intro h piece hpiece
    rw [← h, List.mem_flatMap] at hpiece
    obtain ⟨_, _, hpiece⟩ := hpiece
    exact not_mem_of_mem_splitOn hpiece
  · intro h
    have hone : ∀ piece ∈ pieces, piece.splitOn mark = [piece] :=
      fun piece hpiece => List.splitOn_eq_singleton (h piece hpiece)
    rw [List.flatMap_congr hone, List.flatMap_singleton']

/-- What stands before the first mark is added to the first piece. -/
theorem splitOn_append_of_not_mem {before : List α} (h : mark ∉ before) (cs : List α) :
    ∃ first rest, cs.splitOn mark = first :: rest ∧
      (before ++ cs).splitOn mark = (before ++ first) :: rest := by
  induction before with
  | nil =>
    obtain ⟨first, rest, hcs⟩ := List.exists_cons_of_ne_nil (List.splitOn_ne_nil mark cs)
    exact ⟨first, rest, hcs, hcs⟩
  | cons c before ih =>
    rw [List.mem_cons, not_or] at h
    obtain ⟨first, rest, hcs, hbefore⟩ := ih h.2
    refine ⟨first, rest, hcs, ?_⟩
    rw [List.cons_append, List.splitOn_cons_eq_if_modifyHead, hbefore,
      if_neg (by simpa using Ne.symm h.1)]
    rfl

/-- A character at the end is added to the last piece. -/
theorem splitOn_concat {c : α} (h : c ≠ mark) (cs : List α) :
    ∃ initial last, cs.splitOn mark = initial ++ [last] ∧
      (cs ++ [c]).splitOn mark = initial ++ [last ++ [c]] := by
  induction cs with
  | nil =>
    have hc : mark ∉ [c] := by simpa using h.symm
    exact ⟨[], [], rfl, List.splitOn_eq_singleton hc⟩
  | cons d cs ih =>
    obtain ⟨initial, last, hcs, hend⟩ := ih
    rw [List.cons_append, List.splitOn_cons_eq_if_modifyHead, List.splitOn_cons_eq_if_modifyHead,
      hcs, hend]
    split
    · exact ⟨[] :: initial, last, rfl, rfl⟩
    · cases initial with
      | nil => exact ⟨[], d :: last, rfl, rfl⟩
      | cons first initial => exact ⟨(d :: first) :: initial, last, rfl, rfl⟩

theorem tail_splitOn_append {before : List α} (h : mark ∉ before) (cs : List α) :
    ((before ++ cs).splitOn mark).tail = (cs.splitOn mark).tail := by
  obtain ⟨first, rest, hcs, hbefore⟩ := splitOn_append_of_not_mem h cs
  rw [hcs, hbefore]
  rfl

/-- How the later pieces begin does not depend on a character at the end that no beginning has. -/
theorem forall_mem_tail_splitOn_concat {c : α} {beginning : List α} (h : c ≠ mark)
    (hc : c ∉ beginning) (cs : List α) :
    (∀ piece ∈ ((cs ++ [c]).splitOn mark).tail, beginning <+: piece) ↔
      ∀ piece ∈ (cs.splitOn mark).tail, beginning <+: piece := by
  obtain ⟨initial, last, hcs, hend⟩ := splitOn_concat h cs
  have hlast : beginning <+: last ++ [c] ↔ beginning <+: last := by
    rw [List.prefix_concat_iff, or_iff_right]
    rintro rfl
    exact hc (by simp)
  rw [hcs, hend]
  cases initial with
  | nil => rfl
  | cons first initial =>
    rw [List.cons_append, List.cons_append, List.tail_cons, List.tail_cons,
      List.forall_mem_append, List.forall_mem_append, List.forall_mem_singleton,
      List.forall_mem_singleton, hlast]

variable {quote : Char}

theorem count_double {c : Char} (h : c ≠ quote) (cs : List Char) :
    (double quote cs).count c = cs.count c := by
  induction cs with
  | nil => rfl
  | cons d cs ih =>
    by_cases hd : d = quote
    · have hq : d ≠ c := fun heq => h (heq ▸ hd)
      simp [double, hd, ih, hd ▸ hq]
    · simp [double, hd, List.count_cons, ih]

theorem mem_double_iff {c : Char} (h : c ≠ quote) {cs : List Char} :
    c ∈ double quote cs ↔ c ∈ cs := by
  rw [← List.count_pos_iff, count_double h, List.count_pos_iff]

/-- Each piece has its own quotes doubled. -/
theorem splitOn_double {mark : Char} (h : quote ≠ mark) (cs : List Char) :
    (double quote cs).splitOn mark = (cs.splitOn mark).map (double quote) := by
  induction cs with
  | nil => rfl
  | cons c cs ih =>
    obtain ⟨first, rest, hcs⟩ := List.exists_cons_of_ne_nil (List.splitOn_ne_nil mark cs)
    rw [hcs] at ih
    by_cases hc : c = quote
    · subst hc
      simp [double, List.splitOn_cons_eq_if_modifyHead, h, ih, hcs]
    · by_cases hm : c = mark
      · subst hm
        simp [double, hc, List.splitOn_cons_eq_if_modifyHead, ih, hcs]
      · simp [double, hc, List.splitOn_cons_eq_if_modifyHead, hm, ih, hcs]

theorem prefix_double_iff {beginning cs : List Char} (h : quote ∉ beginning) :
    beginning <+: double quote cs ↔ beginning <+: cs := by
  induction beginning generalizing cs with
  | nil => simp
  | cons b beginning ih =>
    rw [List.mem_cons, not_or] at h
    cases cs with
    | nil => rfl
    | cons c cs =>
      by_cases hc : c = quote
      · have hb : b ≠ c := fun heq => h.1 (hc ▸ heq.symm)
        simp [double, hc, List.cons_prefix_cons, hc ▸ hb]
      · rw [double, if_neg hc, List.cons_prefix_cons, List.cons_prefix_cons, ih h.2]

end FilterQuery.Text
