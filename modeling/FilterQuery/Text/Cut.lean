/-!
# Cutting a text at a mark

Cutting at the first or at the last occurrence of a mark, each with the law that joining the two
parts gives the text back.
-/
namespace FilterQuery.Text

variable {α : Type} [DecidableEq α]

/-- What stands before and after the first `mark`. -/
def cutFirst (mark : α) : List α → Option (List α × List α)
  | [] => none
  | c :: rest =>
    if c = mark then some ([], rest)
    else (cutFirst mark rest).map fun (before, after) => (c :: before, after)

/-- What stands before and after the last `mark`. -/
def cutLast (mark : α) : List α → Option (List α × List α)
  | [] => none
  | c :: rest =>
    match cutLast mark rest with
    | some (before, after) => some (c :: before, after)
    | none => if c = mark then some ([], rest) else none

theorem eq_append_of_cutFirst {mark : α} {cs before after : List α}
    (h : cutFirst mark cs = some (before, after)) : cs = before ++ mark :: after := by
  induction cs generalizing before with
  | nil => simp [cutFirst] at h
  | cons c rest ih =>
    by_cases hc : c = mark
    · simp only [cutFirst, hc, if_true, Option.some.injEq, Prod.mk.injEq] at h
      obtain ⟨rfl, rfl⟩ := h
      simp [hc]
    · simp only [cutFirst, hc, if_false, Option.map_eq_some_iff, Prod.mk.injEq, Prod.exists] at h
      obtain ⟨b, a, hcut, rfl, rfl⟩ := h
      simp [ih hcut]

theorem not_mem_of_cutFirst {mark : α} {cs before after : List α}
    (h : cutFirst mark cs = some (before, after)) : mark ∉ before := by
  induction cs generalizing before with
  | nil => simp [cutFirst] at h
  | cons c rest ih =>
    by_cases hc : c = mark
    · simp only [cutFirst, hc, if_true, Option.some.injEq, Prod.mk.injEq] at h
      simp [← h.1]
    · simp only [cutFirst, hc, if_false, Option.map_eq_some_iff, Prod.mk.injEq, Prod.exists] at h
      obtain ⟨b, a, hcut, rfl, rfl⟩ := h
      simp [Ne.symm hc, ih hcut]

theorem cutFirst_eq_none_iff {mark : α} {cs : List α} : cutFirst mark cs = none ↔ mark ∉ cs := by
  induction cs with
  | nil => simp [cutFirst]
  | cons c rest ih =>
    by_cases hc : c = mark
    · simp [cutFirst, hc]
    · simp [cutFirst, hc, ih, Ne.symm hc]

theorem cutLast_eq_none_iff {mark : α} {cs : List α} : cutLast mark cs = none ↔ mark ∉ cs := by
  induction cs with
  | nil => simp [cutLast]
  | cons c rest ih =>
    cases hr : cutLast mark rest with
    | some p =>
      have hm : mark ∈ rest := by simpa [hr] using ih
      simp [cutLast, hr, hm]
    | none =>
      have hn : mark ∉ rest := ih.mp hr
      by_cases hc : c = mark
      · simp [cutLast, hr, hc]
      · simp [cutLast, hr, hc, hn, Ne.symm hc]

theorem eq_append_of_cutLast {mark : α} {cs before after : List α}
    (h : cutLast mark cs = some (before, after)) : cs = before ++ mark :: after := by
  induction cs generalizing before with
  | nil => simp [cutLast] at h
  | cons c rest ih =>
    cases hr : cutLast mark rest with
    | some p =>
      simp only [cutLast, hr, Option.some.injEq, Prod.mk.injEq] at h
      obtain ⟨rfl, rfl⟩ := h
      simp [ih hr]
    | none =>
      by_cases hc : c = mark
      · simp only [cutLast, hr, hc, if_true, Option.some.injEq, Prod.mk.injEq] at h
        obtain ⟨rfl, rfl⟩ := h
        simp [hc]
      · simp [cutLast, hr, hc] at h

theorem not_mem_of_cutLast {mark : α} {cs before after : List α}
    (h : cutLast mark cs = some (before, after)) : mark ∉ after := by
  induction cs generalizing before after with
  | nil => simp [cutLast] at h
  | cons c rest ih =>
    cases hr : cutLast mark rest with
    | some p =>
      simp only [cutLast, hr, Option.some.injEq, Prod.mk.injEq] at h
      rw [← h.2]
      exact ih hr
    | none =>
      have hn : mark ∉ rest := cutLast_eq_none_iff.mp hr
      by_cases hc : c = mark
      · simp only [cutLast, hr, hc, if_true, Option.some.injEq, Prod.mk.injEq] at h
        exact h.2 ▸ hn
      · simp [cutLast, hr, hc] at h

theorem cutFirst_append {mark : α} {before after : List α} (h : mark ∉ before) :
    cutFirst mark (before ++ mark :: after) = some (before, after) := by
  induction before with
  | nil => simp [cutFirst]
  | cons c rest ih =>
    rw [List.mem_cons, not_or] at h
    simp [cutFirst, Ne.symm h.1, ih h.2]

theorem cutLast_append {mark : α} {before after : List α} (h : mark ∉ after) :
    cutLast mark (before ++ mark :: after) = some (before, after) := by
  induction before with
  | nil => simp [cutLast, cutLast_eq_none_iff.mpr h]
  | cons c rest ih => simp [cutLast, ih]

end FilterQuery.Text
