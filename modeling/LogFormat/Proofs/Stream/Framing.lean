import LogFormat.Proofs.Stream.LineByLine

/-!
# Streams as lines and a tail

Every stream is a sequence of lines with a line feed after each, and then a tail in which there
is no line feed (`exists_framed`).  The lines that can be read from it are those lines, and the
tail if the input does not break off (`lines_framed_append`).
-/

namespace LogFormat

/-- Lines one after the other, with a line feed after each. -/
def framed (lines : List Bytes) : Bytes :=
  lines.flatMap (· ++ [lineFeed])

theorem framed_cons (line : Bytes) (lines : List Bytes) :
  framed (line :: lines) = line ++ lineFeed :: framed lines
  := by
  rw [framed, List.flatMap_cons, ← framed, List.append_assoc, List.singleton_append]

/-- A stream is divided at its line feeds into its lines and its tail. -/
theorem splitOn_framed_append {lines : List Bytes} {tail : Bytes}
    (h : ∀ line ∈ lines, lineFeed ∉ line) (htail : lineFeed ∉ tail) :
  (framed lines ++ tail).splitOn lineFeed = lines ++ [tail]
  := by
  induction lines with
  | nil => exact List.splitOn_eq_singleton htail
  | cons line lines ih =>
    obtain ⟨hline, hothers⟩ := List.forall_mem_cons.1 h
    rw [framed_cons, List.append_assoc, List.cons_append,
      List.splitOn_append_cons_self_of_not_mem hline, ih hothers, List.cons_append]

/-- Every stream is lines with a line feed after each, and a tail. -/
theorem exists_framed (bytes : Bytes) :
  ∃ lines tail, bytes = framed lines ++ tail ∧ (∀ line ∈ lines, lineFeed ∉ line)
    ∧ lineFeed ∉ tail
  := by
  induction bytes with
  | nil => exact ⟨[], [], rfl, by simp, by simp⟩
  | cons byte bytes ih =>
    obtain ⟨lines, tail, rfl, hlines, htail⟩ := ih
    by_cases h : byte = lineFeed
    · subst h
      exact ⟨[] :: lines, tail, rfl, by simpa using hlines, htail⟩
    · cases lines with
      | nil => exact ⟨[], byte :: tail, rfl, hlines, by simpa [Ne.symm h] using htail⟩
      | cons line lines =>
        obtain ⟨hline, hothers⟩ := List.forall_mem_cons.1 hlines
        have hfirst : lineFeed ∉ byte :: line := by simpa [Ne.symm h] using hline
        refine ⟨(byte :: line) :: lines, tail, ?_, List.forall_mem_cons.2 ⟨hfirst, hothers⟩,
          htail⟩
        simp [framed_cons]

/-- The lines that are read from a stream are those that end with a line feed, and the tail if
there is one and the input does not break off. -/
theorem lines_framed_append {lines : List Bytes} {tail : Bytes}
    (h : ∀ line ∈ lines, lineFeed ∉ line) (htail : lineFeed ∉ tail) (failure : Option String) :
  Input.lines ⟨framed lines ++ tail, failure⟩
    = if failure.isSome || tail.isEmpty then lines else lines ++ [tail]
  := by
  have hpieces := divideLines_eq (framed lines ++ tail)
  rw [splitOn_framed_append h htail] at hpieces
  have hfinished : finishedLines (framed lines ++ tail) = lines := by
    simp only [finishedLines, hpieces, List.dropLast_concat]
  have hunfinished : unfinishedLine (framed lines ++ tail) = tail := by
    simp only [unfinishedLine, hpieces, List.getLast_concat]
  rw [Input.lines, hfinished, hunfinished]

theorem framed_append (first second : List Bytes) :
  framed (first ++ second) = framed first ++ framed second
  := List.flatMap_append

/-- A piece that is not blank is one of the lines that are read, after the pieces before it. -/
theorem exists_lines_of_splitOn {bytes line : Bytes} {before after : List Bytes}
    (h : bytes.splitOn lineFeed = before ++ line :: after) (hblank : ¬isBlankLine line) :
  ∃ others, Input.lines ⟨bytes, none⟩ = before ++ line :: others
    ∧ framed before ++ line <+: bytes
    ∧ ∀ l ∈ before, lineFeed ∉ l
  := by
  obtain ⟨lines, tail, rfl, hlines, htail⟩ := exists_framed bytes
  rw [splitOn_framed_append hlines htail] at h
  rw [lines_framed_append hlines htail]
  rcases List.eq_nil_or_concat after with rfl | ⟨after, last, rfl⟩
  · obtain ⟨rfl, ⟨⟩⟩ := List.append_inj' h rfl
    have hline : line.isEmpty = false := by
      cases line with
      | nil => exact absurd rfl hblank
      | cons byte line => rfl
    rw [hline]
    exact ⟨[], rfl, List.prefix_rfl, hlines⟩
  · rw [List.concat_eq_append, ← List.cons_append, ← List.append_assoc] at h
    obtain ⟨rfl, ⟨⟩⟩ := List.append_inj' h rfl
    refine ⟨if tail.isEmpty then after else after ++ [tail], ?_, ?_,
      fun l hl => hlines l (List.mem_append_left _ hl)⟩
    · cases tail <;> simp
    · rw [framed_append, framed_cons, ← List.append_assoc, List.append_assoc]
      apply List.prefix_append

end LogFormat
