import LogFormat.Proofs.Calendar.Rfc3339
import LogFormat.Proofs.Time.LocalClock

/-!
# Seconds since 1970

Digits that are counted as seconds since 1970 are the instant with that number of seconds, if
there is one (`readEpoch_seconds`).  As an item of a time format they are shown as the same
instant (`readShown_epochSeconds`), but what is shown is taken to be what a local clock shows, and
so it is moved by the zone (`readTime_epochSeconds`).
-/

namespace LogFormat

/-! ### Counted seconds -/

/-- Digits that are counted as seconds are the instant with that number of seconds. -/
theorem readEpoch_seconds {ds : List Char} (hdigits : ∀ c ∈ ds, c.isDigit) :
  (readEpoch .seconds ds).toOption = if ds = [] then none else Instant.of? (digitsValue ds) 0
  := by
  by_cases hnil : ds = []
  · subst hnil
    rfl
  · rw [if_neg hnil, readEpoch]
    by_cases hmax : (digitsValue ds : Int) ≤ maxInteger
    · rw [readInteger?_of_digits hnil hdigits hmax]
      rw [maxInteger] at hmax
      have hunit : EpochUnit.seconds.inMicros = 1000000 := rfl
      have hdiv : (digitsValue ds : Int) * EpochUnit.seconds.inMicros / 1000000
          = digitsValue ds := by
        rw [hunit]
        omega
      have hmod : ((digitsValue ds : Int) * EpochUnit.seconds.inMicros % 1000000).toNat * 1000
          = 0 := by
        rw [hunit]
        omega
      simp only [hdiv, hmod]
      split
      · next hmicros =>
        rw [minInteger, maxInteger, hunit] at hmicros
        have hinvalid : ¬Instant.Valid (digitsValue ds) 0 := by
          rintro ⟨hbounds, -⟩
          omega
        rw [Instant.of?, dif_neg hinvalid]
        rfl
      · cases Instant.of? (digitsValue ds) 0 <;> rfl
    · have hread := readInteger?_eq_none hdigits (Int.not_le.1 hmax)
      have hinvalid : ¬Instant.Valid (digitsValue ds) 0 := by
        rw [maxInteger] at hmax
        rintro ⟨hbounds, -⟩
        omega
      rw [hread, Instant.of?, dif_neg hinvalid]
      rfl

/-! ### Seconds as an item -/

namespace Fields

/-- The slots of a date and a time of day, as they are filled from the seconds since 1970. -/
def counted (epochSeconds second year ordinal hour minute : Int) : Fields :=
  ((((((unfilled.fill .epochSeconds epochSeconds).fill .second second).fill .year year).fill
    .ordinal ordinal).fill .half (hour / 12)).fill .hourOfHalf (hour % 12)).fill .minute minute

/-- A slot agrees with the value that it holds. -/
theorem agrees_of_some {f : Fields} {slot : Slot} {value : Int} (h : f slot = some value) :
  f.agrees slot value
  := by
  simp [agrees, h]

/-- The date of these slots is the day of the year. -/
theorem date_counted {d : Date} (hd : d.Valid) (epochSeconds second hour minute : Int) :
  (counted epochSeconds second d.year d.ordinal hour minute).date = .ok d
  := by
  obtain ⟨hyears, hone, hle⟩ := hd
  have hfound : Date.ofOrdinal? d.year d.ordinal = some d := by
    rw [Date.ofOrdinal?, if_pos (by omega), Int.toNat_natCast]
  have hmonthDay : (counted epochSeconds second d.year d.ordinal hour minute).agreesMonthDay d := by
    simp only [agreesMonthDay, Bool.and_eq_true]
    exact ⟨⟨⟨⟨agrees_of_some rfl, agreesPart_of_none rfl _ _⟩, agreesPart_of_none rfl _ _⟩,
      agrees_of_none rfl _⟩, agrees_of_none rfl _⟩
  have hweek : (counted epochSeconds second d.year d.ordinal hour minute).agreesWeek d := by
    simp only [agreesWeek, Bool.and_eq_true]
    exact ⟨⟨⟨agrees_of_none rfl _, agreesPart_of_none rfl _ _⟩, agrees_of_none rfl _⟩,
      agrees_of_none rfl _⟩
  have hordinal : (counted epochSeconds second d.year d.ordinal hour minute).agreesOrdinal d := by
    simp only [agreesOrdinal, Bool.and_eq_true]
    exact ⟨⟨agrees_of_some rfl, agrees_of_none rfl _⟩, agrees_of_none rfl _⟩
  have hquarter : (counted epochSeconds second d.year d.ordinal hour minute).agrees .quarter
      d.quarter := agrees_of_none rfl _
  change (found (Date.ofOrdinal? d.year d.ordinal) >>= _) >>= _ = _
  rw [hfound]
  simp only [found, bind, Except.bind, hmonthDay, hweek, hordinal, hquarter, Bool.and_self, if_true]

/-- The time of day of these slots, as long as the second is not that of a leap second. -/
theorem time_counted {second : Int} (hsecond : second ≠ 60)
    (epochSeconds year ordinal hour minute : Int) :
  (counted epochSeconds second year ordinal hour minute).time
    = .ok (hour * 3600 + minute * 60 + second, 0)
  := by
  have hhour : 12 * (hour / 12) + hour % 12 = hour := by omega
  change (if second = 60 then
      Except.ok ((12 * (hour / 12) + hour % 12) * 3600 + minute * 60 + 59, 1000000000 + 0)
    else .ok ((12 * (hour / 12) + hour % 12) * 3600 + minute * 60 + second, 0)) = _
  rw [hhour, if_neg hsecond]

/-- An instant has the seconds and the nanoseconds of which it is made. -/
theorem eq_of_of? {seconds : Int} {nanos : Nat} {t : Instant}
    (h : Instant.of? seconds nanos = some t) :
  t.seconds = seconds ∧ t.nanos = nanos
  := by
  rw [Instant.of?] at h
  split at h
  · cases h
    exact ⟨rfl, rfl⟩
  · cases h

/-- Seconds since 1970 fill the slots of the date and the time of day that a clock shows, and these
determine an instant. -/
theorem fromEpoch_eq {f f₁ f₂ f₃ f₄ f₅ : Fields} {stated offset : Int} {t : Instant} {d : Date}
    {time : Int × Nat} (ht : Instant.of? (stated + offset) 0 = some t)
    (hordinary : f .second ≠ some 60) (hsecond : f.put .second t.second = .ok f₁)
    (hyear : f₁.put .year t.date.year = .ok f₂) (hordinal : f₂.put .ordinal t.date.ordinal = .ok f₃)
    (hhour : f₃.putHour (t.seconds % 86400 / 3600) = .ok f₄)
    (hminute : f₄.put .minute (t.seconds % 3600 / 60) = .ok f₅)
    (hdate : f₅.date = .ok d) (htime : f₅.time = .ok time) :
  f.fromEpoch stated offset = combine d time
  := by
  rw [Instant.date] at hyear hordinal
  simp only [fromEpoch, ht, if_neg hordinary, bind, Except.bind, hsecond, hyear, hordinal, hhour,
    hminute, hdate, htime]

/-- Seconds since 1970 alone are shown as the instant with that number of seconds. -/
theorem fromEpoch_counted (stated : Int) :
  ((unfilled.fill .epochSeconds stated).fromEpoch stated 0).toOption = Instant.of? stated 0
  := by
  cases h : Instant.of? stated 0 with
  | none =>
    rw [fromEpoch, Int.add_zero, h]
    rfl
  | some t =>
    obtain ⟨rfl, hnanos⟩ := eq_of_of? h
    have hsecond : (t.second : Int) ≠ 60 := by
      have := Nat.mod_lt t.secondOfDay (by decide : 0 < 60)
      rw [Instant.second]
      omega
    have hordinary : unfilled.fill .epochSeconds t.seconds .second ≠ some 60 := by rintro ⟨⟩
    have hhours : 0 ≤ t.seconds % 86400 / 3600 ∧ t.seconds % 86400 / 3600 ≤ 23 := by omega
    obtain ⟨hnumber, hone, hle⟩ := Date.ofDayNumber_spec (t.seconds / 86400)
    have hdate := date_counted ⟨t.date_bounds, hone, hle⟩ t.seconds t.second
      (t.seconds % 86400 / 3600) (t.seconds % 3600 / 60)
    have htime := time_counted hsecond t.seconds t.date.year t.date.ordinal
      (t.seconds % 86400 / 3600) (t.seconds % 3600 / 60)
    have hoffset : Instant.of? (t.seconds + 0) 0 = some t := by rw [Int.add_zero, h]
    have hshown := fromEpoch_eq hoffset hordinary (put_of_none rfl _) (put_of_none rfl _)
      (put_of_none rfl _) (putHour_of_none rfl rfl hhours) (put_of_none rfl _) hdate htime
    have hseconds : 86400 * t.date.dayNumber + (t.seconds % 86400 / 3600 * 3600
        + t.seconds % 3600 / 60 * 60 + t.second) = t.seconds := by
      rw [Instant.date, hnumber, Instant.second, Instant.secondOfDay]
      omega
    have hvalid : Instant.Valid t.seconds 0 := hnanos ▸ t.valid
    rw [hshown, combine_of_valid hseconds hvalid]
    obtain ⟨seconds, nanos, hseconds⟩ := t
    obtain rfl : nanos = 0 := hnanos
    rfl

end Fields

/-- A number of seconds since 1970 reads digits up to their end, if there are any and the number
fits. -/
theorem Quantity.readNumber_epochSeconds {ds : List Char} (hdigits : ∀ c ∈ ds, c.isDigit) :
  Quantity.epochSeconds.readNumber ds
    = if ds = [] then .error .tooShort
      else if maxInteger < (digitsValue ds : Int) then .error .outOfRange
      else .ok ((digitsValue ds : Int), [])
  := by
  have hread : Quantity.epochSeconds.readNumber ds = readDigits 1 none ds := rfl
  have htake : ds.takeWhile Char.isDigit = ds := List.takeWhile_eq_self_iff.2 hdigits
  rw [hread, readDigits]
  by_cases hnil : ds = []
  · subst hnil
    rfl
  · have hpos : 0 < ds.length := List.length_pos_iff.2 hnil
    have hlength : ¬ds.length < 1 := by omega
    simp only [htake, shorterThan_of_length_le hpos, hlength, hnil, List.drop_length, if_false,
      Bool.false_eq_true]

/-- An item for the seconds since 1970 fills its slot with the number of the digits. -/
theorem readFields_epochSeconds {ds : List Char} (hdigits : ∀ c ∈ ds, c.isDigit) (pad : Pad) :
  readFields [.number .epochSeconds pad] ds
    = (Quantity.epochSeconds.readNumber ds).map fun (n, _) =>
        Fields.unfilled.fill .epochSeconds n
  := by
  have htrim : trimStart ds = ds := by
    cases ds with
    | nil => rfl
    | cons c ds => exact trimStart_cons (not_isBlank_of_isDigit (hdigits c List.mem_cons_self)) ds
  have hread := Quantity.readNumber_epochSeconds hdigits
  rw [readFields, List.foldlM_cons]
  simp only [Item.read, Item.readSimple, htrim, hread]
  split
  · rfl
  · split <;> rfl

/-- Seconds since 1970 are shown as the instant with that number of seconds. -/
theorem readShown_epochSeconds {ds : List Char} (hdigits : ∀ c ∈ ds, c.isDigit) (pad : Pad) :
  (readShown [.number .epochSeconds pad] ds).toOption
    = if ds = [] then none else Instant.of? (digitsValue ds) 0
  := by
  rw [readShown, readFields_epochSeconds hdigits, Quantity.readNumber_epochSeconds hdigits]
  by_cases hnil : ds = []
  · rw [if_pos hnil, if_pos hnil]
    rfl
  · rw [if_neg hnil, if_neg hnil]
    by_cases hmax : maxInteger < (digitsValue ds : Int)
    · have hinvalid : ¬Instant.Valid (digitsValue ds) 0 := by
        rw [maxInteger] at hmax
        rintro ⟨hbounds, -⟩
        omega
      rw [if_pos hmax, Instant.of?, dif_neg hinvalid]
      rfl
    · rw [if_neg hmax, ← Fields.fromEpoch_counted]
      -- Nothing else is in the slots, so no date and no time of day is found in them.
      have hshown : (Fields.unfilled.fill .epochSeconds (digitsValue ds)).shown 0
          = (Fields.unfilled.fill .epochSeconds (digitsValue ds)).fromEpoch (digitsValue ds) 0 := rfl
      have hdate : (Fields.unfilled.fill .epochSeconds (digitsValue ds)).date
          = .error .notEnough := rfl
      simp only [Except.map, bind, Except.bind, hshown, hdate]
      cases (Fields.unfilled.fill .epochSeconds (digitsValue ds)).fromEpoch (digitsValue ds) 0
        <;> rfl

/-! ### Zones -/

/-- An instant is made of its parts. -/
theorem Instant.of?_self (t : Instant) :
  of? t.seconds t.nanos = some t
  := by
  rw [of?, dif_pos t.valid]

/-- A time in a zone is what the text shows, moved by the zone. -/
theorem toOption_readLocal (zone : Offset) (items : List Item) (raw : List Char) :
  (readLocal zone items raw).toOption = (readShown items raw).toOption.bind zone.instantOf?
  := by
  rw [readLocal]
  cases readShown items raw with
  | error e => rfl
  | ok shown =>
    simp only [bind, Except.bind]
    cases h : zone.instantOf? shown <;> exact h.symm

/-- A zone shows an instant as a clock in UTC does just if it is as far ahead as UTC. -/
theorem Offset.instantOf?_eq_self_iff {zone : Offset} {t : Instant} :
  zone.instantOf? t = some t ↔ zone.seconds = 0
  := by
  constructor
  · intro h
    obtain ⟨hseconds, -⟩ := localSeconds_of_instantOf? h
    rw [Instant.localSeconds] at hseconds
    omega
  · intro h
    rw [instantOf?, Instant.later?, h, Int.neg_zero, Int.add_zero, Instant.of?_self]

/-- The seconds since 1970 are an item. -/
theorem ofParameter_epochSeconds :
  Layout.ofParameter (some "%s") = .ok (.strftime "%s" [.number .epochSeconds .nothing])
  := by
  have htext : Item.ofText? "%s".toList = some [.number .epochSeconds .nothing] := by
    have hread : Item.specifier? ['s'] = some ([.number .epochSeconds .nothing], []) := by
      decide +kernel
    change Item.ofText? ['%', 's'] = _
    rw [Item.ofText?_percent hread, Item.ofText?_nil]
    rfl
  apply Layout.ofParameter_of_ofText? (by decide) (by decide) htext (by decide) (by decide)

/-- The word for seconds is the count of seconds. -/
theorem ofParameter_sec :
  Layout.ofParameter (some "sec") = .ok (.epoch .seconds)
  := by
  decide +kernel

/-- Digits that are read as a count of seconds are the instant with that number of seconds. -/
theorem toOption_readTime_count (zone : Offset) {raw : String}
    (hdigits : ∀ c ∈ raw.toList, c.isDigit) :
  (readTime zone (.epoch .seconds) raw).toOption
    = if raw.toList = [] then none else Instant.of? (digitsValue raw.toList) 0
  :=
  readEpoch_seconds hdigits

/-- Digits that are read by an item for the seconds since 1970 are the instant with that number of
seconds, moved by the zone. -/
theorem toOption_readTime_item (zone : Offset) (text : String) (pad : Pad) {raw : String}
    (hdigits : ∀ c ∈ raw.toList, c.isDigit) :
  (readTime zone (.strftime text [.number .epochSeconds pad]) raw).toOption
    = (if raw.toList = [] then none else Instant.of? (digitsValue raw.toList) 0).bind
        zone.instantOf?
  := by
  change (readLocal zone [.number .epochSeconds pad] raw.toList).toOption = _
  rw [toOption_readLocal, readShown_epochSeconds hdigits]

/-- The two formats for seconds since 1970 read the same digits up to the zone: as an item they
are an instant that is moved by the zone, and as a count they are not moved.  So the two agree in
UTC, and in no other zone on digits that are an instant at all. -/
theorem readTime_epochSeconds (zone : Offset) {raw : String}
    (hdigits : ∀ c ∈ raw.toList, c.isDigit) :
  ∃ item count, Layout.ofParameter (some "%s") = .ok item
    ∧ Layout.ofParameter (some "sec") = .ok count
    ∧ (readTime zone item raw).toOption = (readTime zone count raw).toOption.bind zone.instantOf?
    ∧ ((readTime zone item raw).toOption = (readTime zone count raw).toOption
      ↔ zone.seconds = 0 ∨ (readTime zone count raw).toOption = none)
  := by
  refine ⟨_, _, ofParameter_epochSeconds, ofParameter_sec, ?_⟩
  rw [toOption_readTime_item zone _ _ hdigits, toOption_readTime_count zone hdigits]
  cases if raw.toList = [] then none else Instant.of? (digitsValue raw.toList) 0 with
  | none => simp
  | some t => simp [Offset.instantOf?_eq_self_iff]

/-- A count of seconds in October 2023. -/
theorem readTime_epochSeconds_october :
  (∀ c ∈ "1696946136".toList, c.isDigit)
    ∧ ∃ item, Layout.ofParameter (some "%s") = .ok item
      ∧ (readTime .utc item "1696946136").toOption = some ⟨1696946136, 0, by decide⟩
  := by
  have hdigits : ∀ c ∈ "1696946136".toList, c.isDigit := List.all_eq_true.1 (by decide)
  have hvalue : digitsValue "1696946136".toList = 1696946136 := by decide
  obtain ⟨item, count, hitem, hcount, -, hagree⟩ := readTime_epochSeconds .utc hdigits
  cases ofParameter_sec.symm.trans hcount
  rw [toOption_readTime_count _ hdigits, if_neg (by decide), hvalue] at hagree
  exact ⟨hdigits, item, hitem, (hagree.2 (.inl rfl)).trans (Instant.of?_self ⟨_, _, _⟩)⟩

/-- An hour ahead of UTC, the seconds since 1970 are moved by an hour. -/
theorem readTime_moves_epoch :
  let zone : Offset := ⟨3600, by decide⟩
  ∃ item count, Layout.ofParameter (some "%s") = .ok item
    ∧ Layout.ofParameter (some "sec") = .ok count
    ∧ (readTime zone item "0").toOption = some ⟨-3600, 0, by decide⟩
    ∧ (readTime zone count "0").toOption = some ⟨0, 0, by decide⟩
  := by
  intro zone
  have hdigits : ∀ c ∈ "0".toList, c.isDigit := List.all_eq_true.1 (by decide)
  have hfirst : Instant.of? (digitsValue "0".toList) 0 = some ⟨0, 0, by decide⟩ :=
    Instant.of?_self ⟨0, 0, by decide⟩
  refine ⟨_, _, ofParameter_epochSeconds, ofParameter_sec, ?_, ?_⟩
  · rw [toOption_readTime_item zone _ _ hdigits, if_neg (by decide), hfirst]
    apply Instant.of?_self ⟨-3600, 0, by decide⟩
  · rw [toOption_readTime_count zone hdigits, if_neg (by decide), hfirst]

end LogFormat
