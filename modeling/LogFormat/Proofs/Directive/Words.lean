import LogFormat.Proofs.Directive.SubPatterns
import LogFormat.Proofs.Pattern.Chain

/-!
# The words of directives

Which texts the sub-patterns of the table describe, said in terms of their characters.
-/

namespace LogFormat

namespace Pattern

/-! ### Repetitions -/

/-- So many copies of a character of a set are texts of so many such characters. -/
theorem mem_language_copies_one {s : CharSet} {n : Nat} {w : List Char} :
  w ∈ (copies (one s) n).language ↔ w.length = n ∧ ∀ c ∈ w, s.has c
  := by
  induction n generalizing w with
  | zero =>
    rw [copies, mem_language_empty, List.length_eq_zero_iff]
    constructor
    · rintro rfl
      exact ⟨rfl, by simp⟩
    · intro h
      apply h.1
  | succ n ih =>
    rw [copies, mem_language_seq]
    constructor
    · rintro ⟨u, hu, v, ⟨c, rfl, hc⟩, rfl⟩
      obtain ⟨hlength, hall⟩ := ih.1 hu
      refine ⟨by simp [hlength], fun d hd => ?_⟩
      rcases List.mem_append.1 hd with hd | hd
      · apply hall d hd
      · rw [List.mem_singleton.1 hd]
        apply hc
    · rintro ⟨hlength, hall⟩
      have hne : w ≠ [] := List.ne_nil_of_length_eq_add_one hlength
      refine ⟨w.dropLast, ih.2 ⟨by simp [hlength], fun c hc => hall c ?_⟩, [w.getLast hne],
        ⟨_, rfl, hall _ (List.getLast_mem hne)⟩, List.dropLast_concat_getLast hne⟩
      apply List.dropLast_subset w hc

/-- One or more characters of a set. -/
theorem mem_language_oneOrMore {s : CharSet} {prefer : Preference} {w : List Char} :
  w ∈ (oneOrMore s prefer).language ↔ w ≠ [] ∧ ∀ c ∈ w, s.has c
  := by
  rw [oneOrMore, mem_language_seq]
  constructor
  · rintro ⟨u, hu, v, hv, rfl⟩
    obtain ⟨hlength, hall⟩ := mem_language_copies_one.1 hu
    refine ⟨?_, fun c hc => ?_⟩
    · rintro hnil
      rw [(List.append_eq_nil_iff.1 hnil).1] at hlength
      cases hlength
    · rcases List.mem_append.1 hc with hc | hc
      · apply hall c hc
      · apply hv c hc
  · rintro ⟨hne, hall⟩
    obtain ⟨c, w, rfl⟩ := List.exists_cons_of_ne_nil hne
    refine ⟨[c], mem_language_copies_one.2 ⟨rfl, ?_⟩, w, ?_, rfl⟩
    · intro d hd
      rw [List.mem_singleton.1 hd]
      apply hall c List.mem_cons_self
    · exact fun d hd => hall d (List.mem_cons_of_mem c hd)

/-- A part that may be left out. -/
theorem mem_language_optional {p : Pattern} {w : List Char} :
  w ∈ (optional .longest p).language ↔ w ∈ p.language ∨ w = []
  := by
  rw [Pattern.optional, mem_language_either, mem_language_empty]

end Pattern

namespace SubPattern

open Pattern

/-! ### Sets of characters -/

theorem has_digits {c : Char} :
  digits.has c ↔ c.isDigit
  := by
  rw [Char.isDigit_iff_toNat]
  simp [digits, CharSet.has, SetItem.has]

theorem has_unquoted {c : Char} :
  unquoted.has c ↔ c ≠ '"'
  := by
  rw [← Char.toNat_inj.ne]
  simp [unquoted, CharSet.has, SetItem.has]

theorem has_unbracketed {c : Char} :
  unbracketed.has c ↔ c ≠ '[' ∧ c ≠ ']'
  := by
  rw [← Char.toNat_inj.ne, ← Char.toNat_inj.ne]
  simp [unbracketed, CharSet.has, SetItem.has]

theorem has_nonblanks {c : Char} :
  CharSet.nonblanks.has c ↔ ¬isBlank c
  := by
  simp [CharSet.nonblanks, CharSet.has, SetItem.has]

/-! ### Bodies -/

/-- Texts without double quotes. -/
theorem mem_language_anyBody {w : List Char} :
  w ∈ anyBody.language ↔ '"' ∉ w
  := by
  rw [anyBody, language_sequence_singleton, mem_language_many]
  simp only [has_unquoted]
  constructor
  · exact fun h hmem => h _ hmem rfl
  · rintro h c hc rfl
    apply h hc

/-- Texts without blanks. -/
theorem mem_language_nonSpaceBody {w : List Char} :
  w ∈ nonSpaceBody.language ↔ ∀ c ∈ w, ¬isBlank c
  := by
  rw [nonSpaceBody, language_sequence_singleton, mem_language_many]
  simp only [has_nonblanks]

/-- The hyphen. -/
theorem mem_language_hyphen {w : List Char} :
  w ∈ hyphen.language ↔ w = ['-']
  := by
  rw [hyphen, language_sequence_singleton, mem_language_single]

/-- A hyphen, or one or more digits. -/
theorem mem_language_integerBody {w : List Char} :
  w ∈ integerBody.language ↔ w = ['-'] ∨ w ≠ [] ∧ ∀ c ∈ w, c.isDigit
  := by
  rw [integerBody, mem_language_either, mem_language_hyphen, language_sequence_singleton,
    mem_language_oneOrMore]
  simp only [has_digits]

/-- Three digits, or a hyphen. -/
theorem mem_language_statusBody {w : List Char} :
  w ∈ statusBody.language ↔ (w.length = 3 ∧ ∀ c ∈ w, c.isDigit) ∨ w = ['-']
  := by
  rw [statusBody, mem_language_either, mem_language_hyphen, language_sequence_singleton,
    mem_language_copies_one]
  simp only [has_digits]

/-- One or more characters other than brackets, with brackets around them or without. -/
theorem mem_language_bracketedTimeBody {w : List Char} :
  w ∈ bracketedTimeBody.language
    ↔ ∃ u, u ≠ [] ∧ (∀ c ∈ u, c ≠ '[' ∧ c ≠ ']') ∧ (w = '[' :: u ++ [']'] ∨ w = u)
  := by
  rw [bracketedTimeBody, mem_language_either, language_sequence_singleton, language_sequence,
    mem_language_oneOrMore]
  simp only [chain, List.foldr_cons, List.foldr_nil, mem_language_seq, mem_language_single,
    mem_language_oneOrMore, mem_language_empty, has_unbracketed]
  constructor
  · rintro (⟨_, rfl, _, ⟨u, ⟨hne, hall⟩, _, ⟨_, rfl, _, rfl, rfl⟩, rfl⟩, rfl⟩ | ⟨hne, hall⟩)
    · exact ⟨u, hne, hall, Or.inl rfl⟩
    · exact ⟨w, hne, hall, Or.inr rfl⟩
  · rintro ⟨u, hne, hall, rfl | rfl⟩
    · apply Or.inl ⟨_, rfl, _, ⟨u, ⟨hne, hall⟩, _, ⟨_, rfl, _, rfl, rfl⟩, rfl⟩, rfl⟩
    · apply Or.inr ⟨hne, hall⟩

/-- Texts without double quotes are taken as short as possible. -/
theorem prefers_anyBody :
  anyBody.Prefers .shortest
  := Prefers.sequence (prefers_many unquoted .shortest)

end SubPattern

end LogFormat
