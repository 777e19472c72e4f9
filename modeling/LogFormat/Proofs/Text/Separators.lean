import Mathlib.Data.List.TakeWhile

/-!
# Dividing a text at a separator

A text that can be divided in two ways at the same separator is divided at two different
occurrences of it (`append_cons_cases`).  So there is only one way if the part before it or
the part after it cannot contain the separator.  A run of characters of a kind ends where
another character begins what follows (`takeWhile_append_ending`).
-/

namespace LogFormat

variable {α : Type} {c : α} {u v u' v' : List α}

/-- Two divisions of a text at the same separator are the same, or one of them is before the
other. -/
theorem append_cons_cases (h : u ++ c :: v = u' ++ c :: v') :
  (u = u' ∧ v = v')
    ∨ (u'.length < u.length ∧ c ∈ u ∧ c ∈ v')
    ∨ (u.length < u'.length ∧ c ∈ u' ∧ c ∈ v)
  := by
  rcases List.append_eq_append_iff.1 h with ⟨w, rfl, hw⟩ | ⟨w, rfl, hw⟩
  · cases w with
    | nil =>
      cases hw
      apply Or.inl ⟨(List.append_nil u).symm, rfl⟩
    | cons d w =>
      cases hw
      apply Or.inr (Or.inr ⟨by simp, by simp, by simp⟩)
  · cases w with
    | nil =>
      cases hw
      apply Or.inl ⟨List.append_nil u', rfl⟩
    | cons d w =>
      cases hw
      apply Or.inr (Or.inl ⟨by simp, by simp, by simp⟩)

/-- There is one way to divide a text at the first separator. -/
theorem eq_of_not_mem_left (hu : c ∉ u) (hu' : c ∉ u') (h : u ++ c :: v = u' ++ c :: v') :
  u = u' ∧ v = v'
  := by
  rcases append_cons_cases h with h | ⟨-, hmem, -⟩ | ⟨-, hmem, -⟩
  · apply h
  · apply absurd hmem hu
  · apply absurd hmem hu'

/-- There is one way to divide a text at the last separator. -/
theorem eq_of_not_mem_right (hv : c ∉ v) (hv' : c ∉ v') (h : u ++ c :: v = u' ++ c :: v') :
  u = u' ∧ v = v'
  := by
  rcases append_cons_cases h with h | ⟨-, -, hmem⟩ | ⟨-, -, hmem⟩
  · apply h
  · apply absurd hmem hv'
  · apply absurd hmem hv

/-- Two divisions of a text at the first character of a kind are at the same character. -/
theorem eq_of_first {c' : α} {P : α → Prop} (hu : ∀ a ∈ u, P a) (hu' : ∀ a ∈ u', P a)
    (hc : ¬P c) (hc' : ¬P c') (h : u ++ c :: v = u' ++ c' :: v') :
  c = c'
  := by
  rcases List.append_eq_append_iff.1 h with ⟨w, rfl, hw⟩ | ⟨w, rfl, hw⟩
  · cases w with
    | nil => exact (List.cons_eq_cons.1 hw).1
    | cons d w =>
      cases hw
      apply absurd (hu' c (by simp)) hc
  · cases w with
    | nil => exact (List.cons_eq_cons.1 hw).1.symm
    | cons d w =>
      cases hw
      apply absurd (hu c' (by simp)) hc'

/-- A division that is not after the first separator is the one at the first separator. -/
theorem eq_of_length_le (hu : c ∉ u) (hle : u'.length ≤ u.length)
    (h : u ++ c :: v = u' ++ c :: v') :
  u = u' ∧ v = v'
  := by
  rcases append_cons_cases h with h | ⟨-, hmem, -⟩ | ⟨hlt, -, -⟩
  · apply h
  · apply absurd hmem hu
  · apply absurd hlt (by omega)

/-- A run of characters of a kind ends before a text that begins with no such character. -/
theorem takeWhile_append_ending {p : α → Bool} {ending : List α}
    (h : ∀ c ∈ ending.head?, ¬p c) (u : List α) :
  (u ++ ending).takeWhile p = u.takeWhile p ∧ (u ++ ending).dropWhile p = u.dropWhile p ++ ending
  := by
  induction u with
  | nil =>
    cases ending with
    | nil => exact ⟨rfl, rfl⟩
    | cons c ending =>
      have hc := h c rfl
      exact ⟨List.takeWhile_cons_of_neg hc, List.dropWhile_cons_of_neg hc⟩
  | cons c u ih =>
    by_cases hc : p c
    · rw [List.cons_append, List.takeWhile_cons_of_pos hc, List.dropWhile_cons_of_pos hc,
        List.takeWhile_cons_of_pos hc, List.dropWhile_cons_of_pos hc, ih.1]
      exact ⟨rfl, ih.2⟩
    · rw [List.cons_append, List.takeWhile_cons_of_neg hc, List.dropWhile_cons_of_neg hc,
        List.takeWhile_cons_of_neg hc, List.dropWhile_cons_of_neg hc]
      exact ⟨rfl, rfl⟩

/-- Characters of a kind are all of the run of that kind. -/
theorem span_append_ending {p : α → Bool} {ending : List α} (hu : ∀ a ∈ u, p a)
    (h : ∀ c ∈ ending.head?, ¬p c) :
  (u ++ ending).takeWhile p = u ∧ (u ++ ending).dropWhile p = ending
  := by
  obtain ⟨htake, hdrop⟩ := takeWhile_append_ending h u
  rw [List.takeWhile_eq_self_iff.2 hu] at htake
  rw [List.dropWhile_eq_nil_iff.2 hu] at hdrop
  exact ⟨htake, hdrop⟩

end LogFormat
