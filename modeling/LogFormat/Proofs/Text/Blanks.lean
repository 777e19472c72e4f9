import LogFormat.Text.Blank
import Mathlib.Data.List.DropRight

/-!
# Removing blanks

What is left of a text without the blanks at either end is the part of it that neither begins nor
ends with one and has only blanks around it (`trim_eq_iff`).
-/

namespace LogFormat

variable {cs : List Char}

/-! ### At the start -/

/-- A text that does not begin with a blank has none to remove at its start. -/
theorem trimStart_cons {c : Char} (h : ¬isBlank c) (cs : List Char) :
  trimStart (c :: cs) = c :: cs
  := by
  rw [trimStart, List.dropWhile_cons_of_neg h]

/-- There are no blanks to remove from the start of a text that begins with none. -/
theorem trimStart_of_head (h : ∀ c ∈ cs.head?, ¬isBlank c) :
  trimStart cs = cs
  := by
  cases cs with
  | nil => rfl
  | cons c cs => exact trimStart_cons (h c rfl) cs

/-- Blanks before a text are removed with those at its start. -/
theorem trimStart_append_of_blank {u : List Char} (hu : ∀ c ∈ u, isBlank c) (cs : List Char) :
  trimStart (u ++ cs) = trimStart cs
  :=
  List.dropWhile_append_of_pos hu

/-- The blanks at the start of a text are not all of it. -/
theorem trimStart_append {u : List Char} (hu : ¬∀ c ∈ u, isBlank c) (cs : List Char) :
  trimStart (u ++ cs) = trimStart u ++ cs
  := by
  rw [trimStart, trimStart, List.dropWhile_append, if_neg]
  rwa [List.isEmpty_iff, List.dropWhile_eq_nil_iff]

/-- What is left of a text without the blanks at its start does not begin with one. -/
theorem not_isBlank_of_head_trimStart :
  ∀ c ∈ (trimStart cs).head?, ¬isBlank c
  := by
  intro c hc
  have hhead := cs.head?_dropWhile_not isBlank
  rw [← trimStart, hc] at hhead
  simpa using hhead

/-! ### At either end -/

/-- A text is another one with blanks around it, which neither begins nor ends with a blank. -/
structure Surrounds (cs inner : List Char) : Prop where
  eq_append : ∃ before after, cs = before ++ inner ++ after ∧ ∀ c ∈ before ++ after, isBlank c
  head : ∀ c ∈ inner.head?, ¬isBlank c
  last : ∀ c ∈ inner.getLast?, ¬isBlank c

/-- Every text has blanks, maybe none, around what is left of it without them. -/
theorem surrounds_trim (cs : List Char) :
  Surrounds cs (trim cs)
  := by
  have htrim : trim cs = (trimStart cs).rdropWhile isBlank := rfl
  refine ⟨⟨cs.takeWhile isBlank, (trimStart cs).rtakeWhile isBlank, ?_, ?_⟩, ?_, ?_⟩
  · rw [htrim, List.append_assoc, List.rdropWhile_append_rtakeWhile, trimStart,
      List.takeWhile_append_dropWhile]
  · rw [List.forall_mem_append]
    exact ⟨fun _ => List.mem_takeWhile_imp, fun _ => List.mem_rtakeWhile_imp⟩
  · -- It begins as the text does without the blanks at its start.
    intro c hc
    obtain ⟨after, hafter⟩ := List.rdropWhile_prefix isBlank (trimStart cs)
    have hstart : c ∈ (trimStart cs).head? := by
      rw [← hafter, ← htrim, List.head?_append, hc]
      rfl
    exact not_isBlank_of_head_trimStart c hstart
  · rw [trim, List.getLast?_reverse]
    exact not_isBlank_of_head_trimStart

/-- What is left of a text without the blanks at either end is what they surround. -/
theorem trim_eq_iff {inner : List Char} :
  trim cs = inner ↔ Surrounds cs inner
  := by
  refine ⟨fun h => h ▸ surrounds_trim cs, fun h => ?_⟩
  obtain ⟨before, after, rfl, hblank⟩ := h.eq_append
  obtain ⟨hbefore, hafter⟩ := List.forall_mem_append.1 hblank
  obtain rfl | hne := eq_or_ne inner []
  · have hall : trimStart (before ++ [] ++ after) = [] := by
      rwa [trimStart, List.append_nil, List.dropWhile_eq_nil_iff]
    rw [trim, hall]
    rfl
  · have hstart : trimStart (before ++ inner ++ after) = inner ++ after := by
      rw [List.append_assoc, trimStart_append_of_blank hbefore, trimStart_of_head]
      rw [List.head?_append_of_ne_nil _ hne]
      exact h.head
    have hlast : ∀ c ∈ inner.reverse.head?, ¬isBlank c := by
      rw [List.head?_reverse]
      exact h.last
    rw [trim, hstart, List.reverse_append, trimStart_append_of_blank (by simpa using hafter),
      trimStart_of_head hlast, List.reverse_reverse]

/-- There are no blanks to remove from a text that has none. -/
theorem trim_eq_self (h : ∀ c ∈ cs, ¬isBlank c) :
  trim cs = cs
  := by
  rw [trim_eq_iff]
  refine ⟨⟨[], [], by simp, by simp⟩, fun c hc => ?_, fun c hc => ?_⟩
  · exact h c (List.mem_of_mem_head? hc)
  · exact h c (List.mem_of_getLast? hc)

end LogFormat
