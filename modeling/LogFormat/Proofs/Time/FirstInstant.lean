import LogFormat.Proofs.Time.EpochSeconds
import LogFormat.Proofs.Time.Steps

/-!
# Slots at the first instant of 1970

If all slots that are filled hold what they should at 1970-01-01T00:00:00Z, then the date and the
time of day that they determine are those of this instant, unless too few slots are filled
(`Fields.AtEpoch.date_eq_or`, `Fields.AtEpoch.time_eq_or`), and so is what a clock shows
(`Fields.AtEpoch.shown_eq`).
-/

namespace LogFormat

/-- What a slot holds at the first instant of 1970, which was a Thursday. -/
def Slot.atEpoch : Slot → Int
  | year => 1970
  | century => 19
  | yearOfCentury => 70
  | weekYear => 1970
  | weekYearOfCentury => 70
  | quarter => 1
  | month => 1
  | day => 1
  | ordinal => 1
  | week => 1
  | weekday => 3
  | _ => 0

/-- The first day of 1970. -/
def Date.newYear1970 : Date :=
  ⟨1970, 1⟩

/-- The first instant of 1970. -/
def Instant.zero : Instant :=
  ⟨0, 0, by decide⟩

namespace Fields

/-- All slots that are filled hold what they should at the first instant of 1970. -/
def AtEpoch (f : Fields) : Prop :=
  ∀ slot v, f slot = some v → v = slot.atEpoch

theorem atEpoch_unfilled :
  unfilled.AtEpoch
  := by
  rintro slot v ⟨⟩

namespace AtEpoch

variable {f f' : Fields}

/-- A slot is empty, or it holds what it should. -/
theorem eq_or (hf : f.AtEpoch) (slot : Slot) :
  f slot = none ∨ f slot = some slot.atEpoch
  := by
  cases h : f slot with
  | none => exact .inl rfl
  | some v =>
    rw [hf slot v h]
    exact .inr rfl

/-- A slot that is filled holds what it should. -/
theorem eq_of_filled (hf : f.AtEpoch) {slot : Slot} (h : ∃ v, f slot = some v) :
  f slot = some slot.atEpoch
  := by
  obtain ⟨v, hv⟩ := h
  rw [hv, hf slot v hv]

/-- Slots that are filled with what they should hold do so. -/
theorem of_adds (hf : f.AtEpoch) {writes : List (Slot × Int)} (h : f.Adds writes f')
    (hwrites : ∀ slot v, (slot, v) ∈ writes → v = slot.atEpoch) :
  f'.AtEpoch
  := by
  intro slot v hv
  obtain hv | hv := (h slot v).1 hv
  · exact hf slot v hv
  · exact hwrites slot v hv

/-- A slot takes what it should hold. -/
theorem exists_put (hf : f.AtEpoch) (slot : Slot) {v : Int} (hv : v = slot.atEpoch) :
  ∃ f', f.put slot v = .ok f' ∧ f'.AtEpoch
  := by
  subst hv
  have hput : ∃ f', f.put slot slot.atEpoch = .ok f' := by
    rw [put]
    obtain h | h := hf.eq_or slot
    · rw [h]
      exact ⟨_, rfl⟩
    · simp only [h, if_true]
      exact ⟨_, rfl⟩
  obtain ⟨f', hput⟩ := hput
  refine ⟨f', hput, hf.of_adds (adds_of_put hput) ?_⟩
  intro slot' v hv
  obtain ⟨rfl, rfl⟩ := Prod.mk.inj (List.mem_singleton.1 hv)
  rfl

/-- A slot with bounds takes what it should hold, if that is between the bounds. -/
theorem exists_putWithin (hf : f.AtEpoch) (slot : Slot) {least most v : Int}
    (hv : v = slot.atEpoch) (hbounds : least ≤ v ∧ v ≤ most) :
  ∃ f', f.putWithin slot least most v = .ok f' ∧ f'.AtEpoch
  := by
  rw [putWithin, if_pos hbounds]
  exact hf.exists_put slot hv

/-- The slots of the hour take those of midnight. -/
theorem exists_putHour (hf : f.AtEpoch) :
  ∃ f', f.putHour 0 = .ok f' ∧ f'.AtEpoch
  := by
  obtain ⟨f₁, hhalf, hf₁⟩ := hf.exists_put .half rfl
  obtain ⟨f₂, hhour, hf₂⟩ := hf₁.exists_put .hourOfHalf rfl
  refine ⟨f₂, ?_, hf₂⟩
  rw [putHour, if_pos (by decide)]
  exact bind_eq_ok.2 ⟨f₁, hhalf, hhour⟩

/-! ### The date -/

/-- A date that is found and agrees with the slots. -/
theorem compared_of_eq {date : Except TimeError Date} {agrees : Date → Bool} {d : Date}
    (hdate : date = .ok d) (h : agrees d) :
  (do let d ← date; .ok (d, agrees d)) = Except.ok (d, true)
  := by
  rw [hdate, ← h]
  rfl

/-- A slot agrees with what it should hold. -/
theorem agrees (hf : f.AtEpoch) {slot : Slot} {value : Int} (h : value = slot.atEpoch) :
  f.agrees slot value
  := by
  rw [agrees_iff, h]
  exact hf slot

theorem agreesPart (hf : f.AtEpoch) {slot : Slot} {year part : Int} (hyear : 0 ≤ year)
    (h : part = slot.atEpoch) :
  f.agreesPart slot year part
  := by
  rw [Fields.agreesPart, if_pos hyear]
  exact hf.agrees h

/-- The slots for year, month and day agree with the first day of 1970. -/
theorem agreesMonthDay (hf : f.AtEpoch) :
  f.agreesMonthDay .newYear1970
  := by
  simp only [Fields.agreesMonthDay, Bool.and_eq_true]
  exact ⟨⟨⟨⟨hf.agrees rfl, hf.agreesPart (by decide) (by decide)⟩,
    hf.agreesPart (by decide) (by decide)⟩, hf.agrees (by decide)⟩, hf.agrees (by decide)⟩

/-- The slots for weeks from Monday to Sunday agree with the first day of 1970. -/
theorem agreesWeek (hf : f.AtEpoch) :
  f.agreesWeek .newYear1970
  := by
  simp only [Fields.agreesWeek, Bool.and_eq_true]
  exact ⟨⟨⟨hf.agrees (by decide), hf.agreesPart (by decide) (by decide)⟩,
    hf.agrees (by decide)⟩, hf.agrees (by decide)⟩

/-- The slots for the day of the year agree with the first day of 1970. -/
theorem agreesOrdinal (hf : f.AtEpoch) :
  f.agreesOrdinal .newYear1970
  := by
  simp only [Fields.agreesOrdinal, Bool.and_eq_true]
  exact ⟨⟨hf.agrees (by decide), hf.agrees (by decide)⟩, hf.agrees (by decide)⟩

/-- A year that is made of what the slots should hold is 1970, if it is stated at all. -/
theorem resolveYear_eq_or {full hundreds rest : Option Int}
    (hfull : full = none ∨ full = some 1970) (hhundreds : hundreds = none ∨ hundreds = some 19)
    (hrest : rest = none ∨ rest = some 70) :
  resolveYear full hundreds rest = .ok (some 1970)
    ∨ (full = none ∧ rest = none) ∧ (resolveYear full hundreds rest = .ok none
      ∨ hundreds = some 19 ∧ resolveYear full hundreds rest = .error .notEnough)
  := by
  rcases hfull with rfl | rfl <;> rcases hhundreds with rfl | rfl <;>
    rcases hrest with rfl | rfl <;> decide

/-- The date that is found first is the first day of 1970, or there is not enough for a date; there
is enough for it if the year is known, and the day of the year or the month and its day. -/
theorem candidate_eq_or (hf : f.AtEpoch) {year weekYear : Option Int}
    (hyear : year = none ∨ year = some 1970) (hweekYear : weekYear = none ∨ weekYear = some 1970) :
  f.candidate year weekYear = .ok (.newYear1970, true)
    ∨ f.candidate year weekYear = .error .notEnough
      ∧ ¬((∃ y, year = some y) ∧ ((∃ v, f .ordinal = some v)
        ∨ (∃ v, f .month = some v) ∧ ∃ v, f .day = some v))
  := by
  have hvalue : ∀ {o : Option Int} {v w : Int}, o = none ∨ o = some w → o = some v → v = w := by
    rintro o v w (rfl | rfl) ⟨⟩
    rfl
  have hmonthDay := hf.agreesMonthDay
  have hweek := hf.agreesWeek
  have hordinal := hf.agreesOrdinal
  rw [candidate.eq_def]
  -- As in the definition: year, month and day; year and day of the year; two kinds of weeks of the
  -- year; weeks with a year of their own; and too little for a date.
  split
  · next y m d hm hd =>
    obtain rfl := hvalue hyear rfl
    obtain rfl := hf _ _ hm
    obtain rfl := hf _ _ hd
    exact .inl (compared_of_eq (by decide) (by simp [hweek, hordinal]))
  · next y n hn _ =>
    obtain rfl := hvalue hyear rfl
    obtain rfl := hf _ _ hn
    exact .inl (compared_of_eq (by decide) (by simp [hmonthDay, hweek, hordinal]))
  · next y w wd hw hwd _ _ =>
    obtain rfl := hvalue hyear rfl
    obtain rfl := hf _ _ hw
    obtain rfl := hf _ _ hwd
    exact .inl (compared_of_eq (by decide) (by simp [hmonthDay, hweek, hordinal]))
  · next y w wd hw hwd _ _ _ =>
    obtain rfl := hvalue hyear rfl
    obtain rfl := hf _ _ hw
    obtain rfl := hf _ _ hwd
    exact .inl (compared_of_eq (by decide) (by simp [hmonthDay, hweek, hordinal]))
  · next wd wy w hwd hw _ _ _ _ =>
    obtain rfl := hvalue hweekYear rfl
    obtain rfl := hf _ _ hw
    obtain rfl := hf _ _ hwd
    exact .inl (compared_of_eq (by decide) (by simp [hmonthDay, hordinal]))
  · next hmonth hday _ _ _ =>
    refine .inr ⟨rfl, ?_⟩
    rintro ⟨⟨y, hy⟩, ⟨n, hn⟩ | ⟨⟨m, hm⟩, d, hd⟩⟩
    · exact hday y n hy hn
    · exact hmonth y m d hy hm hd

/-- The date of the slots is the first day of 1970, or there is not enough for a date; there is
enough for it if the year is stated, and the day of the year or the month and its day. -/
theorem date_eq_or (hf : f.AtEpoch) :
  f.date = .ok .newYear1970
    ∨ f.date = .error .notEnough
      ∧ ¬(((∃ v, f .year = some v) ∨ ∃ v, f .yearOfCentury = some v)
        ∧ ((∃ v, f .ordinal = some v) ∨ (∃ v, f .month = some v) ∧ ∃ v, f .day = some v))
  := by
  have hquarter : f.agrees .quarter Date.newYear1970.quarter := hf.agrees (by decide)
  have hdate : ∀ {year weekYear},
      resolveYear (f .year) (f .century) (f .yearOfCentury) = .ok year →
      resolveYear (f .weekYear) none (f .weekYearOfCentury) = .ok weekYear →
      f.date = (f.candidate year weekYear >>= fun found =>
        if found.2 && f.agrees .quarter found.1.quarter then .ok found.1
        else .error .impossible) := by
    intro year weekYear hyear hweekYear
    rw [date, hyear, hweekYear]
    rfl
  have hweekYear : ∃ weekYear, (weekYear = none ∨ weekYear = some 1970)
      ∧ resolveYear (f .weekYear) none (f .weekYearOfCentury) = .ok weekYear := by
    obtain h | ⟨-, h | ⟨⟨⟩, -⟩⟩ :=
      resolveYear_eq_or (hf.eq_or .weekYear) (.inl rfl) (hf.eq_or .weekYearOfCentury)
    · exact ⟨_, .inr rfl, h⟩
    · exact ⟨_, .inl rfl, h⟩
  obtain ⟨weekYear, hvalue, hweekYear⟩ := hweekYear
  obtain hyear | ⟨⟨hnoYear, hnoRest⟩, hyear | ⟨-, hyear⟩⟩ :=
    resolveYear_eq_or (hf.eq_or .year) (hf.eq_or .century) (hf.eq_or .yearOfCentury)
  · rw [hdate hyear hweekYear]
    obtain h | ⟨h, hday⟩ := hf.candidate_eq_or (.inr rfl) hvalue
    · left
      rw [h]
      simp [bind, Except.bind, hquarter]
    · right
      rw [h]
      exact ⟨rfl, fun ⟨_, hstated⟩ => hday ⟨⟨_, rfl⟩, hstated⟩⟩
  · rw [hdate hyear hweekYear]
    obtain h | ⟨h, -⟩ := hf.candidate_eq_or (.inl rfl) hvalue
    · left
      rw [h]
      simp [bind, Except.bind, hquarter]
    · right
      rw [h]
      exact ⟨rfl, by simp [hnoYear, hnoRest]⟩
  · right
    rw [date, hyear]
    exact ⟨rfl, by simp [hnoYear, hnoRest]⟩

/-! ### The time of day -/

/-- The time of day of the slots is midnight, or there is not enough for a time of day. -/
theorem time_eq_or (hf : f.AtEpoch) :
  f.time = .ok (0, 0) ∨ f.time = .error .notEnough
  := by
  rw [Fields.time.eq_def]
  rcases hf.eq_or .half with h₁ | h₁ <;> rcases hf.eq_or .hourOfHalf with h₂ | h₂ <;>
    rcases hf.eq_or .minute with h₃ | h₃ <;> rcases hf.eq_or .second with h₄ | h₄ <;>
    rcases hf.eq_or .nanosecond with h₅ | h₅ <;> rw [h₁, h₂, h₃, h₄, h₅] <;> decide

/-- If the slots determine a time of day, it is midnight. -/
theorem time_eq_of_exists (hf : f.AtEpoch) (h : ∃ time, f.time = .ok time) :
  f.time = .ok (0, 0)
  := by
  obtain h' | h' := hf.time_eq_or
  · exact h'
  · obtain ⟨time, htime⟩ := h
    cases htime.symm.trans h'

/-! ### What a clock shows -/

/-- Seconds since 1970 leave open the date and the time of day of the first instant. -/
theorem fromEpoch_eq (hf : f.AtEpoch) :
  f.fromEpoch 0 0 = .ok .zero
  := by
  obtain ⟨f₁, hsecond, hf₁⟩ := hf.exists_put .second rfl
  obtain ⟨f₂, hyear, hf₂⟩ := hf₁.exists_put .year rfl
  obtain ⟨f₃, hordinal, hf₃⟩ := hf₂.exists_put .ordinal rfl
  obtain ⟨f₄, hhour, hf₄⟩ := hf₃.exists_putHour
  obtain ⟨f₅, hminute, hf₅⟩ := hf₄.exists_put .minute rfl
  have hadds := (((((adds_of_put hsecond).append (adds_of_put hyear)).append
    (adds_of_put hordinal)).append (adds_of_putHour hhour).2).append (adds_of_put hminute))
  have hfilled : ∀ slot ∈ [Slot.second, .year, .ordinal, .half, .hourOfHalf, .minute],
      ∃ v, f₅ slot = some v := by
    intro slot hslot
    refine ⟨slot.atEpoch, (hadds slot _).2 (.inr ?_)⟩
    revert slot
    decide
  have hdate : f₅.date = .ok .newYear1970 := by
    obtain h | ⟨-, h⟩ := hf₅.date_eq_or
    · exact h
    · exact absurd ⟨.inl (hfilled .year (by decide)), .inl (hfilled .ordinal (by decide))⟩ h
  have htime : f₅.time = .ok (0, 0) := by
    apply hf₅.time_eq_of_exists
    rw [exists_time_iff]
    exact ⟨⟨hfilled .half (by decide), hfilled .hourOfHalf (by decide)⟩,
      hfilled .minute (by decide), fun _ => hfilled .second (by decide)⟩
  have hordinary : f .second ≠ some 60 := by
    intro h
    cases hf _ _ h
  have hzero : Instant.of? (0 + 0) 0 = some .zero := Instant.of?_self .zero
  rw [Fields.fromEpoch_eq hzero hordinary hsecond hyear hordinal hhour hminute hdate htime]
  decide +kernel

/-- A clock shows the first instant of 1970 if the seconds since 1970 are stated, or a date and a
time of day. -/
theorem shown_eq (hf : f.AtEpoch)
    (h : (∃ v, f .epochSeconds = some v) ∨ f.date = .ok .newYear1970 ∧ ∃ time, f.time = .ok time) :
  f.shown 0 = .ok .zero
  := by
  have hcombine : combine .newYear1970 (0, 0) = .ok .zero := by decide +kernel
  rw [Fields.shown]
  obtain hdate | ⟨hdate, -⟩ := hf.date_eq_or
  · obtain htime | htime := hf.time_eq_or
    · rw [hdate, htime]
      obtain hepoch | hepoch := hf.eq_or .epochSeconds
      · simp only [hcombine, hepoch, bind, Except.bind]
      · simp only [hcombine, hepoch, bind, Except.bind]
        rfl
    · obtain ⟨v, hv⟩ | ⟨-, time, h⟩ := h
      · rw [hdate, htime, hv, hf _ _ hv]
        exact hf.fromEpoch_eq
      · cases h.symm.trans htime
  · obtain ⟨v, hv⟩ | ⟨h, -⟩ := h
    · rw [hdate, hv, hf _ _ hv]
      obtain htime | htime := hf.time_eq_or
      · rw [htime]
        exact hf.fromEpoch_eq
      · rw [htime]
        exact hf.fromEpoch_eq
    · cases h.symm.trans hdate

/-- The slots determine the first instant of 1970 if they hold an offset, and the seconds since
1970 or a date and a time of day. -/
theorem instant_eq (hf : f.AtEpoch) (hoffset : ∃ v, f .offset = some v)
    (h : (∃ v, f .epochSeconds = some v) ∨ f.date = .ok .newYear1970 ∧ ∃ time, f.time = .ok time) :
  f.instant = .ok .zero
  := by
  have hutc : Offset.ofSeconds? 0 = some .utc := rfl
  have hzero : Offset.utc.instantOf? .zero = some .zero :=
    Offset.instantOf?_eq_self_iff.2 rfl
  rw [instant, hf.eq_of_filled hoffset]
  simp only [Slot.atEpoch, bind, Except.bind, hf.shown_eq h, hutc, hzero]

end AtEpoch

end Fields

end LogFormat
