import LogFormat.Proofs.Stream.Framing

/-!
# Runs that stop at a line that fails

Up to the first line that fails, a run that stops there does what a run does that skips such
lines (`steps_stop_eq`).  So it ends like the other one if no line fails, and otherwise it leaves
the output that the other one leaves on the input before that line (`run_stop_eq_skip`).
-/

namespace LogFormat

/-- A line has a record, when it is read by itself. -/
def Format.Extracts (f : Format) (maxLineSize : Nat) (line : Bytes) : Prop :=
  ∃ r, f.freshRecord maxLineSize line = .ok r

/-- Among lines of which one fails there is a first one. -/
theorem Format.exists_first_failure (f : Format) (maxLineSize : Nat) {lines : List Bytes}
    {line : Bytes} (hline : line ∈ lines) (hblank : ¬isBlankLine line)
    (hfails : ¬f.Extracts maxLineSize line) :
  ∃ before first after e, lines = before ++ first :: after
    ∧ (∀ l ∈ before, ¬isBlankLine l → f.Extracts maxLineSize l)
    ∧ ¬isBlankLine first ∧ f.freshRecord maxLineSize first = .error e
  := by
  induction lines with
  | nil => cases hline
  | cons l lines ih =>
    by_cases hfirst : ¬isBlankLine l ∧ ¬f.Extracts maxLineSize l
    · obtain ⟨hblank, hfails⟩ := hfirst
      cases hrecord : f.freshRecord maxLineSize l with
      | error e => exact ⟨[], l, lines, e, rfl, by simp, hblank, hrecord⟩
      | ok r => exact absurd ⟨r, hrecord⟩ hfails
    · have hothers : line ∈ lines := by
        rcases List.mem_cons.1 hline with rfl | hothers
        · exact absurd ⟨hblank, hfails⟩ hfirst
        · apply hothers
      obtain ⟨before, first, after, e, rfl, hbefore, hspec⟩ := ih hothers
      refine ⟨l :: before, first, after, e, rfl, List.forall_mem_cons.2 ⟨?_, hbefore⟩, hspec⟩
      intro hblank
      by_contra hfails
      apply hfirst ⟨hblank, hfails⟩

namespace Progress

/-- Steps over lines one after the other. -/
theorem steps_append (x : Extractor) (stop : Bool) (p : Progress) (o : Output)
    (first second : List Bytes) :
  steps x stop p o (first ++ second)
    = match steps x stop p o first with
      | (.error e, o) => (.error e, o)
      | (.ok p, o) => steps x stop p o second
  := by
  induction first generalizing p o with
  | nil => rfl
  | cons line first ih =>
    rw [List.cons_append, steps, steps]
    rcases step x stop p o line with ⟨_ | p, o⟩
    · rfl
    · apply ih

/-- As long as no line fails, it makes no difference whether a run would stop. -/
theorem steps_stop_eq {f : Format} {maxLineSize : Nat} {lines : List Bytes}
    (h : ∀ line ∈ lines, ¬isBlankLine line → f.Extracts maxLineSize line) (c : Counters) (n : Nat)
    (o : Output) :
  steps (f.extractor maxLineSize) true (ready f c n) o lines
    = steps (f.extractor maxLineSize) false (ready f c n) o lines
  := by
  induction lines generalizing c n o with
  | nil => rfl
  | cons line lines ih =>
    obtain ⟨hline, hothers⟩ := List.forall_mem_cons.1 h
    have ih := ih hothers
    rw [steps, steps]
    by_cases hblank : isBlankLine line
    · rw [step_of_blank hblank, step_of_blank hblank]
      apply ih
    · obtain ⟨r, hr⟩ := hline hblank
      rw [step_of_not_blank hblank, step_of_not_blank hblank, hr]
      rcases hemit : emit r o with ⟨_ | _, o'⟩
      · simp only [hemit]
      · simp only [hemit]
        apply ih

end Progress

/-- The lines of a stream of lines that end with a line feed. -/
theorem contentLines_framed {lines : List Bytes} (h : ∀ line ∈ lines, lineFeed ∉ line) :
  contentLines (framed lines) = lines.filter (!isBlankLine ·)
  := by
  have hlines := lines_framed_append h List.not_mem_nil none
  rw [List.append_nil] at hlines
  rw [← filter_lines, hlines]
  rfl

/-- Lines that do not fail are read and written before a line that fails. -/
theorem run_stop_of_error {f : Format} {maxLineSize : Nat} {bytes line : Bytes}
    {before after : List Bytes} {e : RowError} {o : Output}
    (hpieces : bytes.splitOn lineFeed = before ++ line :: after) (hblank : ¬isBlankLine line)
    (hline : f.freshRecord maxLineSize line = .error e)
    (hbefore : ∀ line ∈ before, ¬isBlankLine line → f.Extracts maxLineSize line)
    (hflush : o.flushFailure = none)
    (hroom : o.HasRoom (recordsBytes (f.records maxLineSize (framed before))).size) :
  ∃ counters o', run f maxLineSize false ⟨framed before, none⟩ o = (.ok counters, o')
    ∧ run f maxLineSize true ⟨bytes, none⟩ o = (.error (.invalidRecord (before.length + 1) e), o')
  := by
  obtain ⟨others, hlines, -, hfree⟩ := exists_lines_of_splitOn hpieces hblank
  have hrun := run_eq_outcomes f maxLineSize (framed before) hflush hroom
  refine ⟨_, _, hrun, ?_⟩
  have houtcomes : (before.filter (!isBlankLine ·)).map (f.freshRecord maxLineSize)
      = f.outcomes maxLineSize (framed before) := by
    rw [Format.outcomes, contentLines_framed hfree]
  have hsteps := Progress.steps_eq before houtcomes {} 0 hroom
  rw [run, Progress.start_eq, hlines]
  simp only [Progress.steps_append, Progress.steps_stop_eq hbefore, hsteps, Progress.steps,
    Progress.step_of_error hblank hline, Nat.zero_add, if_true]
  rfl

/-- A run that stops at a line that fails is the beginning of one that skips such lines.  If
every line that is not blank has a record, both end with the same counters and the same output.
Otherwise the run that stops ends with the error of the first line that fails, of which it gives
the number among all lines, blank ones included, and it leaves the output that the other run
leaves on the input before that line. -/
theorem run_stop_eq_skip
    (f : Format) (maxLineSize : Nat) (bytes : Bytes) {o : Output}
    (hroom : o.room = none) (hflush : o.flushFailure = none) :
  ((∀ line ∈ contentLines bytes, f.Extracts maxLineSize line) →
    ∃ counters o', run f maxLineSize false ⟨bytes, none⟩ o = (.ok counters, o')
      ∧ run f maxLineSize true ⟨bytes, none⟩ o = (.ok counters, o'))
  ∧ ((∃ line ∈ contentLines bytes, ¬f.Extracts maxLineSize line) →
    ∃ before line after e counters o', bytes.splitOn lineFeed = before ++ line :: after
      ∧ framed before ++ line <+: bytes
      ∧ (∀ l ∈ before, ¬isBlankLine l → f.Extracts maxLineSize l)
      ∧ ¬isBlankLine line ∧ f.freshRecord maxLineSize line = .error e
      ∧ run f maxLineSize false ⟨framed before, none⟩ o = (.ok counters, o')
      ∧ run f maxLineSize true ⟨bytes, none⟩ o
          = (.error (.invalidRecord (before.length + 1) e), o'))
  := by
  constructor
  · intro h
    have hrun := run_eq_outcomes f maxLineSize bytes hflush
      (Output.hasRoom_of_room_eq_none hroom _)
    have hlines : ∀ line ∈ Input.lines ⟨bytes, none⟩, ¬isBlankLine line →
        f.Extracts maxLineSize line := by
      intro line hline hblank
      apply h
      rw [← filter_lines, List.mem_filter]
      exact ⟨hline, by simpa using hblank⟩
    refine ⟨_, _, hrun, ?_⟩
    rw [← hrun, run, run, Progress.start_eq]
    simp only [Progress.steps_stop_eq hlines]
  · rintro ⟨line, hline, hfails⟩
    obtain ⟨hpiece, hblank⟩ := List.mem_filter.1 hline
    obtain ⟨before, line, after, e, hpieces, hbefore, hblank, he⟩ :=
      f.exists_first_failure maxLineSize hpiece (by simpa using hblank) hfails
    obtain ⟨-, -, hprefix, -⟩ := exists_lines_of_splitOn hpieces hblank
    obtain ⟨counters, o', hskip, hstop⟩ := run_stop_of_error hpieces hblank he hbefore hflush
      (Output.hasRoom_of_room_eq_none hroom _)
    exact ⟨before, line, after, e, counters, o', hpieces, hprefix, hbefore, hblank, he, hskip,
      hstop⟩

/-- A percent sign, a blank line, and then a line that fails and a line that is not read. -/
theorem run_stop_eq_skip_percent :
  let f : Format := ⟨"%%", [⟨"%", "(%)", .string⟩], "(%)", ⟨.group 1 (.one (.single '%')), 1⟩⟩
  ∃ counters o', run f 9 false ⟨[37, 10, 10], none⟩ {} = (.ok counters, o')
    ∧ run f 9 true ⟨[37, 10, 10, 120, 10, 37], none⟩ {} = (.error (.invalidRecord 3 .noMatch), o')
  := by
  intro f
  have hfails : f.freshRecord 9 [120] = .error .noMatch := by rfl
  have hpieces : [37, 10, 10, 120, 10, 37].splitOn lineFeed = [[37], [], [120], [37]] := by decide
  obtain ⟨-, hstop⟩ := run_stop_eq_skip f 9 [37, 10, 10, 120, 10, 37] (o := {}) rfl rfl
  obtain ⟨before, line, after, e, counters, o', h, -, hbefore, hblank, he, hskip, hrun⟩ := hstop
    ⟨[120], by decide, by rintro ⟨r, hr⟩; rw [hfails] at hr; cases hr⟩
  rw [hpieces] at h
  rcases before with _ | ⟨first, _ | ⟨second, _ | ⟨third, before⟩⟩⟩ <;>
    simp only [List.nil_append, List.cons_append, List.cons.injEq] at h
  · obtain ⟨rfl, -⟩ := h
    cases he
  · obtain ⟨-, rfl, -⟩ := h
    exact absurd rfl hblank
  · obtain ⟨rfl, rfl, rfl, -⟩ := h
    cases he
    exact ⟨counters, o', hskip, hrun⟩
  · obtain ⟨-, -, rfl, -⟩ := h
    obtain ⟨r, hr⟩ := hbefore [120] (by simp) (by decide)
    cases hfails.symm.trans hr

end LogFormat
