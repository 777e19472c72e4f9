import LogFormat.Proofs.Time.Steps

/-!
# Stated offsets

If a time format shows an offset from UTC in one of its fixed forms, or a full date and time, the
zone for texts without an offset does not matter.  The text states an offset, and a clock that is
ahead by this offset shows at the instant that is read what the text states
(`readTime_stated_offset`).  The loose form of an offset does not count as one, although it is
read as one.
-/

namespace LogFormat

/-- The slots that determine an instant hold its offset, and a clock that is ahead by the offset
shows the date and the time of day of the slots. -/
theorem Fields.instant_eq_ok {f : Fields} (hf : f.Bounded) (hepoch : f .epochSeconds = none)
    {t : Instant} (h : f.instant = .ok t) :
  ∃ o : Offset, f .offset = some o.seconds ∧ f.date = .ok (t.localDate o)
    ∧ f.time = .ok ((t.localSecond o : Int), t.nanos)
  := by
  rw [instant, hepoch] at h
  cases hoffset : f .offset with
  | none =>
    rw [hoffset] at h
    cases h
  | some offset =>
    rw [hoffset] at h
    obtain ⟨_, ⟨⟩, h⟩ := bind_eq_ok.1 h
    obtain ⟨shown, hshown, h⟩ := bind_eq_ok.1 h
    split at h
    · cases h
    · next o ho =>
      split at h
      · cases h
      · next t' ht =>
        cases h
        have hseconds : o.seconds = offset := by
          rw [Offset.ofSeconds?] at ho
          split at ho
          · cases ho
            rfl
          · cases ho
        obtain ⟨d, time, hdate, htime, hcombine⟩ := (shown_eq_ok hepoch offset).1 hshown
        obtain ⟨hvalid, -⟩ := date_eq_ok hf hdate
        obtain ⟨hvalidTime, -⟩ := time_eq_ok hf htime
        obtain ⟨hlocalDate, hlocalSecond, hnanos⟩ :=
          local_of_combine hvalid hvalidTime hcombine ht
        refine ⟨o, by rw [hseconds], ?_, ?_⟩
        · rw [hlocalDate, hdate]
        · rw [hlocalSecond, hnanos, htime]

/-- A text that is read by items that show an offset is read alike in all zones.  Unless it is read
as seconds since 1970, it states an offset, and all offsets that it states are the same; a clock
that is ahead by this offset shows, at the instant that is read, the date and the time of day that
the slots of the text determine, and every component that the text states. -/
theorem readTime_stated_offset {text : String} {items : List Item}
    (hoffset : Item.showOffset items) (raw : String) :
  (∀ zone zone', readTime zone (.strftime text items) raw
      = readTime zone' (.strftime text items) raw)
    ∧ (Item.someShows items .epoch = false →
      ∀ zone t, readTime zone (.strftime text items) raw = .ok t →
        let reads := StandsAt Step.read (items.flatMap Item.steps) raw.toList
        ∃ f o, readFields items raw.toList = .ok f
          ∧ f.date = .ok (t.localDate o) ∧ f.time = .ok ((t.localSecond o : Int), t.nanos)
          ∧ (∃ step cs, reads step cs ∧ step.isOffset ∧ step.value? cs = some o.seconds)
          ∧ ∀ step cs n, reads step cs → step.value? cs = some n →
              (step.isOffset → n = o.seconds)
                ∧ ∀ c, step.component? = some c → t.shows o c = n)
  := by
  have hread : ∀ zone, readTime zone (.strftime text items) raw
      = readWithOffset items raw.toList := by
    intro zone
    rw [readTime, if_pos hoffset]
  constructor
  · intro zone zone'
    rw [hread, hread]
  · intro hepoch zone t h
    rw [hread] at h
    obtain ⟨f, hfields, hinstant⟩ := bind_eq_ok.1 h
    have hsteps := readItems_of_readFields hfields
    rw [readItems_eq_steps] at hsteps
    have hf := bounded_of_readSteps hsteps
    obtain ⟨o, hstated, hdate, htime⟩ :=
      Fields.instant_eq_ok hf (epochSeconds_of_readSteps hepoch hsteps) hinstant
    obtain ⟨-, hagreesDate⟩ := Fields.date_eq_ok hf hdate
    obtain ⟨-, hagreesTime⟩ := Fields.time_eq_ok hf htime
    refine ⟨f, o, hfields, hdate, htime, exists_offset hsteps hstated, ?_⟩
    intro step cs n hstep hvalue
    have hslots := slots_of_value? hsteps hstep hvalue
    constructor
    · intro hisOffset
      have hslot := hslots .offset n (Step.mem_fills_offset.2 ⟨hisOffset, rfl⟩)
      exact Option.some.inj (hslot.symm.trans hstated)
    · intro c hcomponent
      rw [Step.fills_of_component? hcomponent] at hslots
      apply Component.shownAt_eq hslots _ hagreesDate fun _ => hagreesTime
      rintro rfl
      have hplausible := (readSteps_eq_ok hsteps).2 step cs hstep
      exact Step.hourOfHalf_bounds hcomponent (Step.Plausible.allows hplausible hvalue)

/-- A full date and time half an hour before the end of a leap day, three hours and a half behind
UTC, is read nine hours ahead of UTC. -/
theorem readTime_stated_offset_leap :
  let raw := "2024-02-29T23:30:00.5-03:30"
  let zone : Offset := ⟨32400, by decide⟩
  Item.showOffset [.dateTime]
    ∧ ∃ t, readTime .utc (.strftime "%+" [.dateTime]) raw = .ok t
      ∧ readTime zone (.strftime "%+" [.dateTime]) raw = .ok t
      ∧ ∃ o : Offset, o.seconds = -12600 ∧ t.shows o .day = 29 ∧ t.shows o .hour = 23
  := by
  intro raw zone
  let t : Instant := ⟨1709262000, 500000000, by decide⟩
  have hread : readTime .utc (.strftime "%+" [.dateTime]) raw = .ok t := by
    decide +kernel
  have hoffset : Item.showOffset [.dateTime] := by decide
  obtain ⟨hzones, hstates⟩ := @readTime_stated_offset "%+" [.dateTime] hoffset raw
  obtain ⟨f, o, -, -, -, -, hsteps⟩ := hstates (by decide) .utc t hread
  have hday : StandsAt Step.read ([Item.dateTime].flatMap Item.steps) raw.toList
      (.simple (.zeroed .day)) "29T23:30:00.5-03:30".toList :=
    standsAt_of_take 6 rfl (by decide +kernel)
  have hhour : StandsAt Step.read ([Item.dateTime].flatMap Item.steps) raw.toList
      (.simple (.zeroed .hour)) "23:30:00.5-03:30".toList :=
    standsAt_of_take 8 rfl (by decide +kernel)
  have hzone : StandsAt Step.read ([Item.dateTime].flatMap Item.steps) raw.toList .zone
      "-03:30".toList :=
    standsAt_of_take 16 rfl (by decide +kernel)
  obtain ⟨hseconds, -⟩ := hsteps .zone _ (-12600) hzone (by decide +kernel)
  obtain ⟨-, hdays⟩ := hsteps _ _ 29 hday (by decide +kernel)
  obtain ⟨-, hhours⟩ := hsteps _ _ 23 hhour (by decide +kernel)
  exact ⟨hoffset, t, hread, (hzones zone .utc).trans hread, o, (hseconds rfl).symm,
    hdays .day rfl, hhours .hour rfl⟩

/-- A loose offset is passed over: the text is read as a time in the zone, whichever it is. -/
theorem readTime_drops_loose_offset :
  let items := Item.fullDate ++ .space [' '] :: (Item.clockTime ++ [.looseOffset])
  Layout.ofParameter (some "%F %T%#z") = .ok (.strftime "%F %T%#z" items)
    ∧ readTime .utc (.strftime "%F %T%#z" items) "2024-03-01 13:00:00+0100"
      = .ok ⟨1709298000, 0, by decide⟩
    ∧ readTime ⟨32400, by decide⟩ (.strftime "%F %T%#z" items) "2024-03-01 13:00:00+0100"
      = .ok ⟨1709265600, 0, by decide⟩
  := by
  intro items
  have htext : Item.ofText? "%F %T%#z".toList = some items := by
    have hdate : Item.specifier? "F %T%#z".toList = some (Item.fullDate, " %T%#z".toList) := by
      decide +kernel
    have htime : Item.specifier? "T%#z".toList = some (Item.clockTime, "%#z".toList) := by
      decide +kernel
    have hoffset : Item.specifier? "#z".toList = some ([.looseOffset], []) := by decide +kernel
    change Item.ofText? ('%' :: "F %T%#z".toList) = _
    rw [Item.ofText?_percent hdate]
    change (Item.ofText? (' ' :: "%T%#z".toList)).map _ = _
    rw [Item.ofText?_blank (by decide)]
    change ((Item.ofText? ('%' :: "T%#z".toList)).map _).map _ = _
    rw [Item.ofText?_percent htime]
    change (((Item.ofText? ('%' :: "#z".toList)).map _).map _).map _ = _
    rw [Item.ofText?_percent hoffset, Item.ofText?_nil]
    rfl
  have hformat : Layout.ofParameter (some "%F %T%#z") = .ok (.strftime "%F %T%#z" items) :=
    Layout.ofParameter_of_ofText? (by decide) (by decide) htext (by decide) (by decide)
  exact ⟨hformat, by decide +kernel, by decide +kernel⟩

end LogFormat
