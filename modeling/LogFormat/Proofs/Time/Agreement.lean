import LogFormat.Proofs.Time.CommonLog
import LogFormat.Proofs.Time.Slots

/-!
# Slots that agree with a date and a time

The date that the slots determine is one of the calendar in use, and all slots of the date agree
with it, those too from which it has not been found (`date_eq_ok`).  The same is so for the time
of day (`time_eq_ok`).  A date and a time of day together are always an instant
(`exists_combine`).
-/

namespace LogFormat

/-! ### Slots in bounds -/

/-- The values that the slots of the time of day can hold, and the year of a century. -/
def Slot.Allows (slot : Slot) (v : Int) : Prop :=
  match slot with
  | yearOfCentury => 0 ≤ v ∧ v ≤ 99
  | half => 0 ≤ v ∧ v ≤ 1
  | hourOfHalf => 0 ≤ v ∧ v ≤ 11
  | minute => 0 ≤ v ∧ v ≤ 59
  | second => 0 ≤ v ∧ v ≤ 60
  | nanosecond => 0 ≤ v ∧ v ≤ 999999999
  | _ => True

/-- A number that there can be fills the slots with values that they can hold. -/
theorem Item.slot_allows {item : Item} {slot : Slot} {n v : Int} (hn : item.Allows n)
    (h : (slot, v) ∈ item.fills n) :
  slot.Allows v
  := by
  cases item with
  | number q pad =>
    cases q with
    | hour =>
      have hn : 0 ≤ n ∧ n ≤ 23 := hn
      simp only [fills, Quantity.fills, List.mem_cons, Prod.mk.injEq, List.not_mem_nil,
        or_false] at h
      obtain ⟨rfl, rfl⟩ | ⟨rfl, rfl⟩ := h
      · rw [Slot.Allows]
        omega
      · rw [Slot.Allows]
        omega
    | hourOfHalf =>
      obtain ⟨rfl, rfl⟩ := Prod.mk.inj (List.mem_singleton.1 h)
      rw [Slot.Allows]
      omega
    | _ =>
      obtain ⟨rfl, rfl⟩ := Prod.mk.inj (List.mem_singleton.1 h)
      exact hn
  | literal | space | zoneName | dateTime => cases h
  | _ =>
    obtain ⟨rfl, rfl⟩ := Prod.mk.inj (List.mem_singleton.1 h)
    exact hn

/-- All slots hold values that they can hold. -/
def Fields.Bounded (f : Fields) : Prop :=
  ∀ slot v, f slot = some v → slot.Allows v

namespace Fields

/-- The slots of the date hold what they should at a date. -/
structure AgreesDate (f : Fields) (d : Date) : Prop where
  year : ∀ v, f .year = some v → v = d.year
  century : ∀ v, f .century = some v → v = d.year / 100
  yearOfCentury : ∀ v, f .yearOfCentury = some v → v = d.year % 100
  month : ∀ v, f .month = some v → v = d.month
  day : ∀ v, f .day = some v → v = d.day
  ordinal : ∀ v, f .ordinal = some v → v = d.ordinal

/-- A slot that agrees with a value holds it if it holds one. -/
theorem agrees_iff {f : Fields} {slot : Slot} {value : Int} :
  f.agrees slot value ↔ ∀ v, f slot = some v → v = value
  := by
  rw [agrees]
  cases f slot <;> simp

/-- A slot that agrees with a part of a year holds it if it holds one. -/
theorem eq_of_agreesPart {f : Fields} {slot : Slot} {year part : Int}
    (h : f.agreesPart slot year part) :
  ∀ v, f slot = some v → v = part
  := by
  rw [agreesPart] at h
  split at h
  · exact agrees_iff.1 h
  · intro v hv
    rw [hv] at h
    cases h

/-- A date with which month and day have been compared, and the day of the year. -/
theorem agreesDate_of_agrees {f : Fields} {d : Date} (hday : f.agreesMonthDay d)
    (hordinal : f.agreesOrdinal d) :
  f.AgreesDate d
  := by
  simp only [agreesMonthDay, Bool.and_eq_true] at hday
  simp only [agreesOrdinal, Bool.and_eq_true] at hordinal
  obtain ⟨⟨⟨⟨hyear, hcentury⟩, hyearOfCentury⟩, hmonth⟩, hday⟩ := hday
  obtain ⟨⟨hordinal, -⟩, -⟩ := hordinal
  exact ⟨agrees_iff.1 hyear, eq_of_agreesPart hcentury, eq_of_agreesPart hyearOfCentury,
    agrees_iff.1 hmonth, agrees_iff.1 hday, agrees_iff.1 hordinal⟩

/-- The year that is found has the century and the year of the century that are stated. -/
theorem resolveYear_eq_ok {full hundreds rest : Option Int} {y : Int}
    (hrest : ∀ r, rest = some r → 0 ≤ r ∧ r ≤ 99)
    (h : resolveYear full hundreds rest = .ok (some y)) :
  (∀ v, full = some v → v = y) ∧ (∀ v, hundreds = some v → v = y / 100)
    ∧ ∀ v, rest = some v → v = y % 100
  := by
  rw [resolveYear.eq_def] at h
  split at h
  · cases h
    simp
  · next y' hundreds rest _ =>
    split at h
    · next hagree =>
      obtain ⟨-, hcentury, hyearOfCentury⟩ := hagree
      cases h
      refine ⟨by simp, ?_, ?_⟩
      · rintro c rfl
        exact hcentury
      · rintro r rfl
        exact hyearOfCentury
    · cases h
  · next c r =>
    have hr := hrest r rfl
    cases h
    refine ⟨by simp, ?_, ?_⟩
    · rintro _ ⟨⟩
      omega
    · rintro _ ⟨⟩
      omega
  · next r =>
    have hr := hrest r rfl
    cases h
    refine ⟨by simp, by simp, ?_⟩
    rintro _ ⟨⟩
    split <;> omega
  · cases h

theorem found_eq_ok {date? : Option Date} {d : Date} (h : found date? = .ok d) :
  date? = some d
  := by
  cases date? with
  | none => cases h
  | some d' =>
    cases h
    rfl

/-- A day of a week of the year is one of the calendar in use. -/
theorem valid_of_weekDate {year week weekday first : Int} {d : Date}
    (h : weekDate year week weekday first = .ok d) :
  d.Valid
  := by
  rw [weekDate] at h
  split at h
  · cases h
  · split at h
    · cases h
    · simp only at h
      split at h
      · cases h
      · next hd =>
        cases h
        exact (Date.ordinal_of_ofOrdinal? hd).1

/-- A date that is found and then compared with the slots. -/
theorem compared_eq_ok {date : Except TimeError Date} {agrees : Date → Bool} {d : Date}
    (h : (do let d ← date; .ok (d, agrees d)) = Except.ok (d, true)) :
  date = .ok d ∧ agrees d
  := by
  obtain ⟨d', hd, h⟩ := bind_eq_ok.1 h
  obtain ⟨rfl, hagrees⟩ := Prod.mk.inj (Except.ok.inj h)
  exact ⟨hd, hagrees⟩

/-- The date that the slots give is one of the calendar in use, and the slots agree with it.  Year,
month and day are not compared with a date that they give. -/
theorem candidate_eq_ok {f : Fields} {year weekYear : Option Int} {d : Date}
    (h : f.candidate year weekYear = .ok (d, true)) :
  d.Valid ∧ f.agreesOrdinal d
    ∧ (f.agreesMonthDay d ∨ year = some d.year ∧ f .month = some (d.month : Int)
      ∧ f .day = some (d.day : Int))
  := by
  rw [candidate.eq_def] at h
  -- Year, month and day; year and day of the year; two kinds of weeks of the year; weeks with a
  -- year of their own; and too little for a date.
  split at h
  · next y m n hmonth hday =>
    obtain ⟨hd, hagrees⟩ := compared_eq_ok h
    obtain ⟨hvalid, rfl, rfl, rfl⟩ := Date.month_day_of_ofMonthDay? (found_eq_ok hd)
    rw [Bool.and_eq_true] at hagrees
    exact ⟨hvalid, hagrees.2, .inr ⟨rfl, hmonth, hday⟩⟩
  · obtain ⟨hd, hagrees⟩ := compared_eq_ok h
    rw [Bool.and_eq_true, Bool.and_eq_true] at hagrees
    exact ⟨(Date.ordinal_of_ofOrdinal? (found_eq_ok hd)).1, hagrees.2, .inl hagrees.1.1⟩
  · obtain ⟨hd, hagrees⟩ := compared_eq_ok h
    rw [Bool.and_eq_true, Bool.and_eq_true] at hagrees
    exact ⟨valid_of_weekDate hd, hagrees.2, .inl hagrees.1.1⟩
  · obtain ⟨hd, hagrees⟩ := compared_eq_ok h
    rw [Bool.and_eq_true, Bool.and_eq_true] at hagrees
    exact ⟨valid_of_weekDate hd, hagrees.2, .inl hagrees.1.1⟩
  · obtain ⟨hd, hagrees⟩ := compared_eq_ok h
    rw [Bool.and_eq_true] at hagrees
    exact ⟨Date.valid_of_ofWeek? (found_eq_ok hd), hagrees.2, .inl hagrees.1⟩
  · cases h

/-- The slots of the date hold what they should at the date that they determine, which is one of
the calendar in use. -/
theorem date_eq_ok {f : Fields} (hf : f.Bounded) {d : Date} (h : f.date = .ok d) :
  d.Valid ∧ f.AgreesDate d
  := by
  obtain ⟨year, hyear, h⟩ := bind_eq_ok.1 h
  obtain ⟨weekYear, -, h⟩ := bind_eq_ok.1 h
  obtain ⟨⟨d', agrees⟩, hcandidate, h⟩ := bind_eq_ok.1 h
  cases agrees with
  | false => cases h
  | true =>
    simp only [Bool.true_and] at h
    split at h
    · cases h
      obtain ⟨hvalid, hordinal, hday | ⟨rfl, hmonth, hday⟩⟩ := candidate_eq_ok hcandidate
      · exact ⟨hvalid, agreesDate_of_agrees hday hordinal⟩
      · obtain ⟨hyear, hcentury, hyearOfCentury⟩ :=
          resolveYear_eq_ok (hf .yearOfCentury) hyear
        simp only [agreesOrdinal, Bool.and_eq_true] at hordinal
        refine ⟨hvalid, hyear, hcentury, hyearOfCentury, ?_, ?_, agrees_iff.1 hordinal.1.1⟩
        · intro v hv
          exact Option.some.inj (hv.symm.trans hmonth)
        · intro v hv
          exact Option.some.inj (hv.symm.trans hday)
    · cases h

/-! ### Times of day -/

/-- The slots of the time of day hold what they should at a second of the day and nanoseconds. -/
structure AgreesTime (f : Fields) (time : Int × Nat) : Prop where
  half : ∀ v, f .half = some v → v = time.1 / 43200
  hourOfHalf : ∀ v, f .hourOfHalf = some v → v = time.1 / 3600 % 12
  minute : ∀ v, f .minute = some v → v = time.1 / 60 % 60
  second : ∀ v, f .second = some v → v = time.1 % 60 + time.2 / 1000000000
  nanosecond : ∀ v, f .nanosecond = some v → v = time.2 % 1000000000

/-- A second of a day, and nanoseconds, of which there may be a billion more in the last second
of a minute. -/
def ValidTime (time : Int × Nat) : Prop :=
  (0 ≤ time.1 ∧ time.1 < 86400) ∧ time.2 < 2000000000
    ∧ (1000000000 ≤ time.2 → time.1 % 60 = 59)

/-- Half, hour and minute make up a second of the day with what remains, which is at most 59, and
a billion nanoseconds come only after second 59. -/
theorem agreesTime_of_slots {f : Fields} (hf : f.Bounded) {half hour minute : Int}
    (rest : Int) (nanos : Nat) (hhalf : f .half = some half) (hhour : f .hourOfHalf = some hour)
    (hminute : f .minute = some minute) (hrest : 0 ≤ rest ∧ rest ≤ 59)
    (hnanos : nanos < 2000000000) (hleap : 1000000000 ≤ nanos → rest = 59)
    (hsecond : ∀ v, f .second = some v → v = rest + nanos / 1000000000)
    (hnanosecond : ∀ v, f .nanosecond = some v → v = nanos % 1000000000) :
  ValidTime ((12 * half + hour) * 3600 + minute * 60 + rest, nanos)
    ∧ f.AgreesTime ((12 * half + hour) * 3600 + minute * 60 + rest, nanos)
  := by
  have bhalf : 0 ≤ half ∧ half ≤ 1 := hf _ _ hhalf
  have bhour : 0 ≤ hour ∧ hour ≤ 11 := hf _ _ hhour
  have bminute : 0 ≤ minute ∧ minute ≤ 59 := hf _ _ hminute
  have hpart : ((12 * half + hour) * 3600 + minute * 60 + rest) % 60 = rest := by omega
  constructor
  · rw [ValidTime]
    dsimp only
    omega
  · refine ⟨?_, ?_, ?_, ?_, hnanosecond⟩
    · intro v hv
      cases hhalf.symm.trans hv
      dsimp only
      omega
    · intro v hv
      cases hhour.symm.trans hv
      dsimp only
      omega
    · intro v hv
      cases hminute.symm.trans hv
      dsimp only
      omega
    · intro v hv
      rw [hsecond v hv]
      dsimp only
      rw [hpart]

/-- The slots of the time of day hold what they should at the time of day that they determine. -/
theorem time_eq_ok {f : Fields} (hf : f.Bounded) {time : Int × Nat} (h : f.time = .ok time) :
  ValidTime time ∧ f.AgreesTime time
  := by
  rw [Fields.time.eq_def] at h
  split at h
  · next half hour minute hhalf hhour hminute =>
    simp only at h
    split at h
    · next hsecond hnanos =>
      cases h
      have hagrees := agreesTime_of_slots hf 0 0 hhalf hhour hminute
        (by decide) (by decide) (by decide) (by simp [hsecond]) (by simp [hnanos])
      rwa [Int.add_zero] at hagrees
    · cases h
    · next second hsecond =>
      have bsecond : 0 ≤ second ∧ second ≤ 60 := hf _ _ hsecond
      have hnanos : ((f .nanosecond).getD 0).toNat ≤ 999999999
          ∧ ∀ v, f .nanosecond = some v → v = ((f .nanosecond).getD 0).toNat := by
        cases hslot : f .nanosecond with
        | none => simp
        | some nanos =>
          have bnanos : 0 ≤ nanos ∧ nanos ≤ 999999999 := hf _ _ hslot
          simp only [Option.getD_some, Option.some.injEq, forall_eq']
          omega
      obtain ⟨hle, hnanosecond⟩ := hnanos
      generalize ((f .nanosecond).getD 0).toNat = nanos at h hle hnanosecond
      split at h
      · next hleap =>
        cases h
        apply agreesTime_of_slots hf 59 (1000000000 + nanos) hhalf hhour hminute
        · decide
        · omega
        · omega
        · intro v hv
          cases hsecond.symm.trans hv
          omega
        · intro v hv
          have := hnanosecond v hv
          omega
      · next hordinary =>
        cases h
        apply agreesTime_of_slots hf second nanos hhalf hhour hminute
        · omega
        · omega
        · omega
        · intro v hv
          cases hsecond.symm.trans hv
          omega
        · intro v hv
          have := hnanosecond v hv
          omega
  · cases h

/-- The slots determine a time of day if the hour and the minute are filled, and the second if
there is a part of it. -/
theorem exists_time_iff {f : Fields} :
  (∃ time, f.time = .ok time)
    ↔ ((∃ v, f .half = some v) ∧ (∃ v, f .hourOfHalf = some v)) ∧ (∃ v, f .minute = some v)
      ∧ ((∃ v, f .nanosecond = some v) → ∃ v, f .second = some v)
  := by
  rw [Fields.time.eq_def]
  cases f .half <;> cases f .hourOfHalf <;> cases f .minute <;> cases f .second <;>
    cases f .nanosecond <;> simp
  all_goals split <;> simp

/-! ### Instants -/

/-- A date and a time of day that are valid are an instant. -/
theorem exists_combine {d : Date} {time : Int × Nat} (hd : d.Valid) (htime : ValidTime time) :
  ∃ shown, combine d time = .ok shown ∧ shown.seconds = 86400 * d.dayNumber + time.1
    ∧ shown.nanos = time.2
  := by
  obtain ⟨hfirst, hlast⟩ := Date.dayNumber_bounds hd
  obtain ⟨hseconds, hnanos, hleap⟩ := htime
  have hvalid : Instant.Valid (86400 * d.dayNumber + time.1) time.2 := by
    refine ⟨by omega, hnanos, ?_⟩
    omega
  exact ⟨⟨_, _, hvalid⟩, combine_of_valid rfl hvalid, rfl, rfl⟩

/-- Slots that hold no seconds since 1970 determine an instant by their date and their time of
day, and no other. -/
theorem shown_eq_ok {f : Fields} (hepoch : f .epochSeconds = none) (offset : Int)
    {shown : Instant} :
  f.shown offset = .ok shown
    ↔ ∃ d time, f.date = .ok d ∧ f.time = .ok time ∧ combine d time = .ok shown
  := by
  rw [Fields.shown]
  constructor
  · intro h
    split at h
    · next d time hdate htime =>
      obtain ⟨shown', hcombine, h⟩ := bind_eq_ok.1 h
      rw [hepoch] at h
      cases h
      exact ⟨d, time, hdate, htime, hcombine⟩
    · rw [hepoch] at h
      obtain ⟨d, hdate, h⟩ := bind_eq_ok.1 h
      obtain ⟨time, htime, hcombine⟩ := bind_eq_ok.1 h
      exact ⟨d, time, hdate, htime, hcombine⟩
  · rintro ⟨d, time, hdate, htime, hcombine⟩
    rw [hdate, htime]
    simp only [hcombine, hepoch, bind, Except.bind]

end Fields

end LogFormat
