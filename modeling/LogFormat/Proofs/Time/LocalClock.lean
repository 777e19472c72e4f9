import LogFormat.Proofs.Time.Agreement
import LogFormat.Proofs.Time.Components

/-!
# What a local clock shows

Whenever a text without an offset is read as an instant, a local clock shows every component of
the date that the text states.  It also shows every component of the time of day, if the text
states the hour and the minute, and the second if it states a part of a second.  If it does not,
it is read as midnight, whatever it says of the time of day (`readTime_states`).
-/

namespace LogFormat

/-! ### Local clocks -/

/-- The component that a local clock shows. -/
def Instant.shows (t : Instant) (zone : Offset) (c : Component) : Int :=
  c.shownAt (t.localDate zone) (t.localSecond zone, t.nanos)

/-- A local clock shows what a clock in UTC would show at the instant before it is moved by the
offset. -/
theorem localSeconds_of_instantOf? {zone : Offset} {shown t : Instant}
    (h : zone.instantOf? shown = some t) :
  t.localSeconds zone = shown.seconds ∧ t.nanos = shown.nanos
  := by
  rw [Offset.instantOf?, Instant.later?, Instant.of?] at h
  split at h
  · cases h
    rw [Instant.localSeconds]
    exact ⟨Int.neg_add_cancel_right _ _, rfl⟩
  · cases h

/-- A local clock shows the date and the time of day of which an instant is made. -/
theorem local_of_combine {zone : Offset} {d : Date} {time : Int × Nat} {shown t : Instant}
    (hd : d.Valid) (htime : Fields.ValidTime time) (hshown : Fields.combine d time = .ok shown)
    (ht : zone.instantOf? shown = some t) :
  t.localDate zone = d ∧ (t.localSecond zone : Int) = time.1 ∧ t.nanos = time.2
  := by
  obtain ⟨shown', hshown', hseconds, hnanos⟩ := Fields.exists_combine hd htime
  cases hshown.symm.trans hshown'
  obtain ⟨hsecond, -, -⟩ := htime
  obtain ⟨hlocal, hnanos'⟩ := localSeconds_of_instantOf? ht
  refine ⟨?_, ?_, hnanos'.trans hnanos⟩
  · have hday : t.localSeconds zone / 86400 = d.dayNumber := by omega
    rw [Instant.localDate, hday, Date.ofDayNumber_dayNumber hd.2.1 hd.2.2]
  · rw [Instant.localSecond]
    omega

/-- An instant that is read without an offset is the one at which a local clock shows the date of
the slots, and their time of day or, if they determine none, midnight. -/
theorem readLocal_eq_ok {zone : Offset} {items : List Item} {raw : List Char} {t : Instant}
    {f : Fields} (hf : f.Bounded) (hread : readFields items raw = .ok f)
    (hepoch : f .epochSeconds = none) (h : readLocal zone items raw = .ok t) :
  ∃ d time, f.date = .ok d
    ∧ (f.time = .ok time ∨ (¬∃ time', f.time = .ok time') ∧ time = (0, 0))
    ∧ t.localDate zone = d ∧ (t.localSecond zone : Int) = time.1 ∧ t.nanos = time.2
  := by
  have hmidnight : Fields.ValidTime (0, 0) := by
    rw [Fields.ValidTime]
    decide
  obtain ⟨shown, hshown, h⟩ := bind_eq_ok.1 h
  have ht : zone.instantOf? shown = some t := by
    split at h
    · next ht =>
      cases h
      exact ht
    · cases h
  obtain ⟨f', hread', hshown⟩ := bind_eq_ok.1 hshown
  cases hread.symm.trans hread'
  split at hshown
  · next shown' hslots =>
    cases hshown
    obtain ⟨d, time, hdate, htime, hcombine⟩ := (Fields.shown_eq_ok hepoch 0).1 hslots
    obtain ⟨hvalid, -⟩ := Fields.date_eq_ok hf hdate
    obtain ⟨hvalidTime, -⟩ := Fields.time_eq_ok hf htime
    exact ⟨d, time, hdate, .inl htime, local_of_combine hvalid hvalidTime hcombine ht⟩
  · next e hslots =>
    obtain ⟨d, hdate, hcombine⟩ := bind_eq_ok.1 hshown
    obtain ⟨hvalid, -⟩ := Fields.date_eq_ok hf hdate
    refine ⟨d, (0, 0), hdate, .inr ⟨?_, rfl⟩, local_of_combine hvalid hmidnight hcombine ht⟩
    -- The date and a time of day would have been an instant, and no other error is left.
    rintro ⟨time, htime⟩
    obtain ⟨hvalidTime, -⟩ := Fields.time_eq_ok hf htime
    obtain ⟨shown', hcombine', -⟩ := Fields.exists_combine hvalid hvalidTime
    have hslots' := (Fields.shown_eq_ok hepoch 0).2 ⟨d, time, hdate, htime, hcombine'⟩
    cases hslots.symm.trans hslots'

/-- If the slots of a component hold the number that is stated for it, and are those of a date and
a time of day, the component is that number. -/
theorem Component.shownAt_eq {f : Fields} {d : Date} {time : Int × Nat} {c : Component} {n : Int}
    (hslots : ∀ slot v, (slot, v) ∈ c.slots n → f slot = some v)
    (hn : c = hourOfHalf → 1 ≤ n ∧ n ≤ 12) (hdate : f.AgreesDate d)
    (htime : c.isClock → f.AgreesTime time) :
  c.shownAt d time = n
  := by
  have hfilled : ∀ {slot}, c.slots n = [(slot, n)] → f slot = some n := by
    intro slot heq
    apply hslots
    rw [heq]
    apply List.mem_singleton_self
  cases c with
  | year => exact (hdate.year n (hfilled rfl)).symm
  | century => exact (hdate.century n (hfilled rfl)).symm
  | yearOfCentury => exact (hdate.yearOfCentury n (hfilled rfl)).symm
  | month => exact (hdate.month n (hfilled rfl)).symm
  | day => exact (hdate.day n (hfilled rfl)).symm
  | ordinal => exact (hdate.ordinal n (hfilled rfl)).symm
  | hour =>
    have hhalf := (htime rfl).half _ (hslots _ _ List.mem_cons_self)
    have hhour := (htime rfl).hourOfHalf _
      (hslots _ _ (List.mem_cons_of_mem _ (List.mem_singleton_self _)))
    rw [shownAt]
    omega
  | half => exact ((htime rfl).half n (hfilled rfl)).symm
  | hourOfHalf =>
    have hhour := (htime rfl).hourOfHalf _ (hslots _ _ (List.mem_singleton_self _))
    have hbounds := hn rfl
    rw [shownAt]
    omega
  | minute => exact ((htime rfl).minute n (hfilled rfl)).symm
  | second => exact ((htime rfl).second n (hfilled rfl)).symm
  | nanosecond => exact ((htime rfl).nanosecond n (hfilled rfl)).symm

/-! ### A format of an hour without a minute -/

theorem Item.ofText?_nil :
  ofText? [] = some []
  := by
  rw [ofText?.eq_def]

/-- A specifier stands for its items. -/
theorem Item.ofText?_percent {cs rest : List Char} {items : List Item}
    (h : specifier? cs = some (items, rest)) :
  ofText? ('%' :: cs) = (ofText? rest).map (items ++ ·)
  := by
  rw [ofText?.eq_def]
  simp only
  split
  · next hnone =>
    rw [h] at hnone
    cases hnone
  · next hsome =>
    cases h.symm.trans hsome
    rfl

/-- White space is an item of its own. -/
theorem Item.ofText?_blank {c : Char} (hc : isBlank c) (cs : List Char) :
  ofText? (c :: cs)
    = (ofText? (cs.dropWhile isBlank)).map (space (c :: cs.takeWhile isBlank) :: ·)
  := by
  have hpercent : c ≠ '%' := by
    rintro rfl
    cases hc
  rw [ofText?.eq_def]
  simp only [if_pos hc]

/-- Other text is an item of its own, up to the next blank or specifier. -/
theorem Item.ofText?_literal {c : Char} (hc : isLiteral c) (cs : List Char) :
  ofText? (c :: cs)
    = (ofText? (cs.dropWhile isLiteral)).map (literal (c :: cs.takeWhile isLiteral) :: ·)
  := by
  simp only [isLiteral, Bool.and_eq_true, bne_iff_ne, Bool.not_eq_true'] at hc
  obtain ⟨hpercent, hblank⟩ := hc
  rw [ofText?.eq_def]
  simp [hblank]

/-- A text of items that show a date, and with an offset a time of day, is a format, unless it is
one of the words for other layouts. -/
theorem Layout.ofParameter_of_ofText? {text : String} {items : List Item}
    (hmoment : withoutMoment text.toList = text.toList)
    (hwords : text.toList ∉ ["sec".toList, "msec".toList, "usec".toList, "msec_frac".toList,
      "usec_frac".toList, []])
    (htext : Item.ofText? text.toList = some items) (hdate : Item.showDate items)
    (htime : Item.showOffset items → Item.showTime items) :
  ofParameter (some text) = .ok (.strftime text items)
  := by
  simp only [List.mem_cons, List.not_mem_nil, or_false, not_or] at hwords
  obtain ⟨hsec, hmsec, husec, hmsecFrac, husecFrac, hempty⟩ := hwords
  have hoffset : (Item.showOffset items && !Item.showTime items) = false := by
    cases hshows : Item.showOffset items with
    | false => rfl
    | true => simp [htime hshows]
  simp only [ofParameter, hmoment]
  rw [if_neg hsec, if_neg hmsec, if_neg husec, if_neg (not_or.2 ⟨hmsecFrac, husecFrac⟩),
    if_neg hempty, ofFormat, htext]
  simp [hdate, hoffset]

/-- Only an item for the seconds since 1970 fills their slot. -/
theorem Item.someShows_epoch {items : List Item} {item : Item} {n v : Int} (hitem : item ∈ items)
    (h : (Slot.epochSeconds, v) ∈ item.fills n) :
  someShows items .epoch
  := by
  refine List.any_eq_true.2 ⟨item, hitem, ?_⟩
  cases item with
  | number q pad => cases q <;> simp_all [fills, Quantity.fills, parts]
  | _ => simp_all [fills]

end LogFormat
