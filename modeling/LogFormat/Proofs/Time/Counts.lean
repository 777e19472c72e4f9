import LogFormat.Proofs.Time.EpochSeconds

/-!
# Counts since 1970

A count of seconds, or of thousandths or millionths of a second, is read from an optional sign and
digits, of which there can be any number.  It is read if the calendar in use has the day on which
the count ends, and then as the exact instant (`readTime_epoch`): within the calendar a count never
leaves the 64 bits of the number itself or those of its microseconds.
-/

namespace LogFormat

/-! ### Numbers -/

/-- One or more digits, maybe after a sign, denote a number. -/
inductive Denotes : List Char → Int → Prop
  | unsigned {ds : List Char} (hne : ds ≠ []) (hdigits : ∀ c ∈ ds, c.isDigit) :
      Denotes ds (digitsValue ds)
  | plus {ds : List Char} (hne : ds ≠ []) (hdigits : ∀ c ∈ ds, c.isDigit) :
      Denotes ('+' :: ds) (digitsValue ds)
  | minus {ds : List Char} (hne : ds ≠ []) (hdigits : ∀ c ∈ ds, c.isDigit) :
      Denotes ('-' :: ds) (-(digitsValue ds : Int))

/-- Digits are read as the number that they denote, of whatever size. -/
theorem map_readNat?_eq_some_iff {f : Int → Int} {cs : List Char} {n : Int} :
  Option.map f (do let m ← readNat? cs; pure (m : Int)) = some n
    ↔ (cs ≠ [] ∧ ∀ c ∈ cs, c.isDigit) ∧ f (digitsValue cs) = n
  := by
  rw [← List.all_eq_true, readNat?]
  split
  · next h => simp [h]
  · next h =>
    simp only [h, false_and, iff_false]
    rintro ⟨⟩

/-- The numbers that are read are those of 64 bits that a text denotes. -/
theorem readInteger?_eq_some_iff {cs : List Char} {n : Int} :
  readInteger? cs = some n ↔ Denotes cs n ∧ minInteger ≤ n ∧ n ≤ maxInteger
  := by
  rw [readInteger?.eq_def]
  simp only [Option.filter_eq_some_iff, Bool.and_eq_true, decide_eq_true_eq]
  refine and_congr_left fun _ => ?_
  split
  · next ds =>
    rw [map_readNat?_eq_some_iff]
    constructor
    · rintro ⟨⟨hne, hdigits⟩, rfl⟩
      exact .minus hne hdigits
    · rintro (⟨hne, hdigits⟩ | _ | ⟨hne, hdigits⟩)
      · cases hdigits '-' List.mem_cons_self
      · exact ⟨⟨hne, hdigits⟩, rfl⟩
  · next ds =>
    rw [map_readNat?_eq_some_iff]
    constructor
    · rintro ⟨⟨hne, hdigits⟩, rfl⟩
      exact .plus hne hdigits
    · rintro (⟨hne, hdigits⟩ | ⟨hne, hdigits⟩)
      · cases hdigits '+' List.mem_cons_self
      · exact ⟨⟨hne, hdigits⟩, rfl⟩
  · next hminus hplus =>
    rw [map_readNat?_eq_some_iff]
    constructor
    · rintro ⟨⟨hne, hdigits⟩, rfl⟩
      exact .unsigned hne hdigits
    · rintro (⟨hne, hdigits⟩ | _ | _)
      · exact ⟨⟨hne, hdigits⟩, rfl⟩
      · exact absurd rfl (hplus _)
      · exact absurd rfl (hminus _)

/-! ### Instants -/

/-- The calendar in use has the day of a number of seconds since 1970 just if the seconds are in the
bounds of an instant. -/
theorem Date.year_bounds_iff {seconds : Int} :
  (firstYear ≤ (ofDayNumber (seconds / 86400)).year
      ∧ (ofDayNumber (seconds / 86400)).year ≤ lastYear)
    ↔ Instant.Valid seconds 0
  := by
  constructor
  · intro hyears
    obtain ⟨hnumber, hone, hle⟩ := ofDayNumber_spec (seconds / 86400)
    obtain ⟨hfirst, hlast⟩ := dayNumber_bounds ⟨hyears, hone, hle⟩
    rw [hnumber] at hfirst hlast
    exact ⟨by omega, by decide, fun h => absurd h (by decide)⟩
  · intro hvalid
    exact Instant.date_bounds ⟨seconds, 0, hvalid⟩

namespace EpochUnit

/-- How many of the unit are a second. -/
def perSecond : EpochUnit → Int
  | seconds => 1
  | millis => 1000
  | micros => 1000000

/-- Whether the calendar in use has the day on which a count since 1970 ends. -/
def InCalendar (unit : EpochUnit) (n : Int) : Prop :=
  let date := Date.ofDayNumber (n / (86400 * unit.perSecond))
  Date.firstYear ≤ date.year ∧ date.year ≤ Date.lastYear

end EpochUnit

/-- The instant at the end of a count since 1970, which is never in a leap second. -/
def Instant.IsCount (t : Instant) (unit : EpochUnit) (n : Int) : Prop :=
  (t.seconds * 1000000000 + t.nanos) * unit.perSecond = n * 1000000000 ∧ t.nanos < 1000000000

/-- The microseconds of a count are divided in seconds and a rest. -/
theorem Instant.isCount_iff {t : Instant} {unit : EpochUnit} {n : Int} :
  t.IsCount unit n
    ↔ t.seconds = n * unit.inMicros / 1000000
      ∧ t.nanos = (n * unit.inMicros % 1000000).toNat * 1000
  := by
  rw [IsCount]
  cases unit <;> simp only [EpochUnit.perSecond, EpochUnit.inMicros] <;> omega

/-- The calendar in use has the day of a count just if there is an instant with its seconds. -/
theorem EpochUnit.inCalendar_iff {unit : EpochUnit} {n : Int} :
  unit.InCalendar n ↔ Instant.Valid (n * unit.inMicros / 1000000) 0
  := by
  have hday : n / (86400 * unit.perSecond) = n * unit.inMicros / 1000000 / 86400 := by
    cases unit <;> simp only [perSecond, inMicros] <;> omega
  rw [InCalendar, hday, Date.year_bounds_iff]

/-- A part of a second that is no leap second does not matter for the bounds of an instant. -/
theorem Instant.valid_iff_of_lt {seconds : Int} {nanos : Nat} (h : nanos < 1000000000) :
  Valid seconds nanos ↔ Valid seconds 0
  := by
  simp only [Valid]
  omega

/-- A count is read if its text denotes a number, and there is an instant at its end. -/
theorem readEpoch_eq_ok {unit : EpochUnit} {cs : List Char} {t : Instant} :
  readEpoch unit cs = .ok t ↔ ∃ n, Denotes cs n ∧ t.IsCount unit n
  := by
  rw [readEpoch]
  constructor
  · intro h
    split at h
    · cases h
    · next n hn =>
      simp only at h
      split_ifs at h
      split at h
      · next t' ht =>
        cases h
        exact ⟨n, (readInteger?_eq_some_iff.1 hn).1,
          Instant.isCount_iff.2 (Fields.eq_of_of? ht)⟩
      · cases h
  · rintro ⟨n, hn, ht⟩
    rw [Instant.isCount_iff] at ht
    obtain ⟨hseconds, hnanos⟩ := ht
    obtain ⟨⟨hmin, hmax⟩, -, -⟩ := t.valid
    -- The seconds of an instant are far from the bounds of 64 bits, even as microseconds.
    have hmicros : -8334601228800000000 ≤ n * unit.inMicros
        ∧ n * unit.inMicros ≤ 8210266876799999999 := by omega
    have hfits : minInteger ≤ n ∧ n ≤ maxInteger := by
      rw [minInteger, maxInteger]
      cases unit <;> simp only [EpochUnit.inMicros] at hmicros <;> omega
    have hof : Instant.of? (n * unit.inMicros / 1000000)
        ((n * unit.inMicros % 1000000).toNat * 1000) = some t := by
      rw [← hseconds, ← hnanos, Instant.of?, dif_pos t.valid]
    rw [readInteger?_eq_some_iff.2 ⟨hn, hfits⟩]
    simp only [hof]
    rw [if_neg]
    rw [minInteger, maxInteger]
    omega

/-- A count since 1970 is read, in whatever zone, if it is an optional sign and digits, and the
calendar in use has the day on which it ends.  It is read as the exact instant at its end. -/
theorem readTime_epoch (zone : Offset) (unit : EpochUnit) (raw : String) :
  (∀ t, readTime zone (.epoch unit) raw = .ok t ↔ ∃ n, Denotes raw.toList n ∧ t.IsCount unit n)
    ∧ ((∃ t, readTime zone (.epoch unit) raw = .ok t)
      ↔ ∃ n, Denotes raw.toList n ∧ unit.InCalendar n)
  := by
  have hread : ∀ t, readTime zone (.epoch unit) raw = .ok t
      ↔ ∃ n, Denotes raw.toList n ∧ t.IsCount unit n := fun _ => readEpoch_eq_ok
  refine ⟨hread, ?_⟩
  simp only [hread, EpochUnit.inCalendar_iff]
  constructor
  · rintro ⟨t, n, hn, ht⟩
    obtain ⟨hseconds, -⟩ := Instant.isCount_iff.1 ht
    refine ⟨n, hn, ?_⟩
    rw [← hseconds, ← Instant.valid_iff_of_lt ht.2]
    exact t.valid
  · rintro ⟨n, hn, hvalid⟩
    have hnanos : (n * unit.inMicros % 1000000).toNat * 1000 < 1000000000 := by omega
    exact ⟨⟨_, _, (Instant.valid_iff_of_lt hnanos).2 hvalid⟩, n, hn,
      Instant.isCount_iff.2 ⟨rfl, rfl⟩⟩

/-- The last millisecond before 1970. -/
example :
  readTime .utc (.epoch .millis) "-1" = .ok ⟨-1, 999000000, by decide⟩
  := by
  decide +kernel

end LogFormat
