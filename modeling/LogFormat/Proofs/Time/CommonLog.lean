import LogFormat.Proofs.Calendar.Days
import LogFormat.Proofs.Results
import LogFormat.Proofs.Time.Reading
import LogFormat.Time.Layout

/-!
# The common log time

An instant of whole seconds that is written as the common log time, as a clock with an
offset of whole minutes shows it, is read back as that instant, whatever the zone for texts
without an offset is (`readTime_commonLogText`).
-/

namespace LogFormat

/-! ### Local clocks -/

namespace Instant

/-- The seconds from 1970-01-01 on that a local clock shows. -/
def localSeconds (t : Instant) (zone : Offset) : Int :=
  t.seconds + zone.seconds

/-- The date that a local clock shows. -/
def localDate (t : Instant) (zone : Offset) : Date :=
  Date.ofDayNumber (t.localSeconds zone / 86400)

/-- The second of the day that a local clock shows. -/
def localSecond (t : Instant) (zone : Offset) : Nat :=
  (t.localSeconds zone % 86400).toNat

/-- The common log time that a local clock shows, such as `10/Oct/2000:13:55:36 -0700`. -/
def commonLogText (t : Instant) (zone : Offset) : List Char :=
  padded 2 (t.localDate zone).day ++ '/' :: (shortMonth ((t.localDate zone).month - 1)
    ++ '/' :: (padded 4 (t.localDate zone).year.toNat
    ++ ':' :: (padded 2 (t.localSecond zone / 3600)
    ++ ':' :: (padded 2 (t.localSecond zone / 60 % 60)
    ++ ':' :: (padded 2 (t.localSecond zone % 60 + t.nanos / 1000000000)
    ++ ' ' :: (zone.text ++ []))))))

/-- A short name of a month consists of letters. -/
theorem isAlpha_of_mem_shortMonth {i : Nat} {c : Char} (h : c ∈ shortMonth i) :
  c.isAlpha
  := by
  have hall : ∀ name ∈ monthNames, name.all Char.isAlpha := by decide
  have hmem := List.mem_of_mem_take h
  rw [List.getD_eq_getElem?_getD] at hmem
  cases hname : monthNames[i]? with
  | none =>
    rw [hname] at hmem
    cases hmem
  | some name =>
    rw [hname] at hmem
    apply List.all_eq_true.1 (hall name (List.mem_of_getElem? hname)) c hmem

/-- The common log time consists of letters, digits and some signs. -/
theorem mem_commonLogText {t : Instant} {zone : Offset} {c : Char}
    (h : c ∈ t.commonLogText zone) :
  c.isAlphanum ∨ c ∈ ['/', ':', ' ', '+', '-']
  := by
  have hdigits : ∀ {width n : Nat}, c ∈ padded width n → c.isAlphanum := by
    intro width n hmem
    rw [Char.isAlphanum, isDigit_of_mem_padded hmem, Bool.or_true]
  have hmonth : ∀ {i : Nat}, c ∈ shortMonth i → c.isAlphanum := by
    intro i hmem
    rw [Char.isAlphanum, isAlpha_of_mem_shortMonth hmem, Bool.true_or]
  have hzone : c ∈ zone.text → c.isAlphanum ∨ c ∈ ['/', ':', ' ', '+', '-'] := by
    intro hmem
    rw [Offset.text, List.mem_cons, List.mem_append] at hmem
    rcases hmem with hsign | hmem | hmem
    · right
      rw [hsign]
      split <;> simp
    · apply Or.inl (hdigits hmem)
    · apply Or.inl (hdigits hmem)
  simp only [commonLogText, List.mem_append, List.mem_cons, List.not_mem_nil, or_false] at h
  rcases h with h | h | h | h | h | h | h | h | h | h | h | h | h
  all_goals first
    | exact Or.inl (hdigits h)
    | exact Or.inl (hmonth h)
    | exact hzone h
    | exact Or.inr (by simp [h])

end Instant

/-! ### Slots -/

namespace Fields

/-- The slots with one more filled. -/
def fill (f : Fields) (slot : Slot) (value : Int) : Fields :=
  fun s => if s = slot then some value else f s

/-- An empty slot is filled. -/
theorem put_of_none {f : Fields} {slot : Slot} (h : f slot = none) (value : Int) :
  f.put slot value = .ok (f.fill slot value)
  := by
  rw [put, h]
  rfl

theorem putWithin_of_none {f : Fields} {slot : Slot} {least most value : Int}
    (h : f slot = none) (hbounds : least ≤ value ∧ value ≤ most) :
  f.putWithin slot least most value = .ok (f.fill slot value)
  := by
  rw [putWithin, if_pos hbounds, put_of_none h]

/-- The slots of an hour are filled if both are empty. -/
theorem putHour_of_none {f : Fields} {hour : Int} (hhalf : f .half = none)
    (hhour : f .hourOfHalf = none) (hbounds : 0 ≤ hour ∧ hour ≤ 23) :
  f.putHour hour = .ok ((f.fill .half (hour / 12)).fill .hourOfHalf (hour % 12))
  := by
  have hhour' : f.fill .half (hour / 12) .hourOfHalf = none := hhour
  rw [putHour, if_pos hbounds, put_of_none hhalf]
  apply put_of_none hhour' _

/-- An empty slot agrees with everything. -/
theorem agrees_of_none {f : Fields} {slot : Slot} (h : f slot = none) (value : Int) :
  f.agrees slot value
  := by
  rw [agrees, h]
  rfl

theorem agreesPart_of_none {f : Fields} {slot : Slot} (h : f slot = none) (year part : Int) :
  f.agreesPart slot year part
  := by
  rw [agreesPart]
  split
  · apply agrees_of_none h part
  · rw [h]
    rfl

/-- The slots that a common log time fills. -/
def commonLog (day month year hour minute second offset : Int) : Fields :=
  ((((((((unfilled.fill .day day).fill .month month).fill .year year).fill .half
    (hour / 12)).fill .hourOfHalf (hour % 12)).fill .minute minute).fill .second
    second).fill .offset offset)

/-- The date of a common log time is that of its day, month and year. -/
theorem date_commonLog {d : Date} (h : Date.ofMonthDay? d.year d.month d.day = some d)
    (hour minute second offset : Int) :
  (commonLog d.day d.month d.year hour minute second offset).date = .ok d
  := by
  have hweek : (commonLog d.day d.month d.year hour minute second offset).agreesWeek d := by
    simp only [agreesWeek, Bool.and_eq_true]
    exact ⟨⟨⟨agrees_of_none rfl _, agreesPart_of_none rfl _ _⟩, agrees_of_none rfl _⟩,
      agrees_of_none rfl _⟩
  have hordinal : (commonLog d.day d.month d.year hour minute second offset).agreesOrdinal
      d := by
    simp only [agreesOrdinal, Bool.and_eq_true]
    exact ⟨⟨agrees_of_none rfl _, agrees_of_none rfl _⟩, agrees_of_none rfl _⟩
  have hquarter : (commonLog d.day d.month d.year hour minute second offset).agrees .quarter
      d.quarter := agrees_of_none rfl _
  have hcandidate : (commonLog d.day d.month d.year hour minute second offset).candidate
      (some d.year) none = .ok (d, true) := by
    change (found (Date.ofMonthDay? d.year d.month d.day) >>= _) = _
    rw [h]
    change Except.ok (d, _ && _) = _
    rw [hweek, hordinal]
    rfl
  change ((commonLog d.day d.month d.year hour minute second offset).candidate
    (some d.year) none >>= _) = _
  rw [hcandidate]
  simp only [bind, Except.bind, hquarter, Bool.and_self, if_true]

/-- The time of day of a common log time, where second 60 is the leap second after second
59. -/
theorem time_commonLog (day month year hour minute second offset : Int) :
  (commonLog day month year hour minute second offset).time
    = .ok (if second = 60 then (hour * 3600 + minute * 60 + 59, 1000000000)
        else (hour * 3600 + minute * 60 + second, 0))
  := by
  have hhour : 12 * (hour / 12) + hour % 12 = hour := by omega
  change (if second = 60 then
      Except.ok ((12 * (hour / 12) + hour % 12) * 3600 + minute * 60 + 59, 1000000000 + 0)
    else .ok ((12 * (hour / 12) + hour % 12) * 3600 + minute * 60 + second, 0)) = _
  rw [hhour]
  split <;> rfl

/-- A date and a time of day are an instant if they are in its bounds. -/
theorem combine_of_valid {date : Date} {second seconds : Int} {nanos : Nat}
    (hseconds : 86400 * date.dayNumber + second = seconds) (h : Instant.Valid seconds nanos) :
  combine date (second, nanos) = .ok ⟨seconds, nanos, h⟩
  := by
  subst hseconds
  delta combine
  rw [Instant.of?, dif_pos h]

/-- The instant of a common log time is the one that a clock in UTC shows, moved by the
offset. -/
theorem instant_commonLog {f : Fields} {offset : Offset} {d : Date} {time : Int × Nat}
    {shown t : Instant} (hoffset : f .offset = some offset.seconds)
    (hepoch : f .epochSeconds = none) (hdate : f.date = .ok d) (htime : f.time = .ok time)
    (hcombine : combine d time = .ok shown) (ht : offset.instantOf? shown = some t) :
  f.instant = .ok t
  := by
  have hshown : f.shown offset.seconds = .ok shown := by
    rw [Fields.shown, hdate, htime]
    simp only [hcombine, hepoch, bind, Except.bind]
  have hofSeconds : Offset.ofSeconds? offset.seconds = some offset := by
    rw [Offset.ofSeconds?, dif_pos offset.bounds]
  rw [instant, hoffset]
  simp only [bind, Except.bind, hshown, hofSeconds, ht]

end Fields

/-! ### Reading back -/

/-- An item that is read leaves the rest of the text to the other items. -/
theorem foldlM_read_cons {item : Item} {items : List Item} {f f' : Fields}
    {cs rest : List Char} (h : item.read f cs = .ok (f', rest)) :
  (item :: items).foldlM (fun (f, cs) item => item.read f cs) (f, cs)
    = items.foldlM (fun (f, cs) item => item.read f cs) (f', rest)
  := by
  simp only [List.foldlM_cons, h]
  rfl

/-- White space of a layout reads a blank before a text that begins with none. -/
theorem Item.read_space {text cs : List Char} (f : Fields) (h : trimStart cs = cs) :
  (Item.space text).read f (' ' :: cs) = .ok (f, cs)
  := by
  have htrim : trimStart (' ' :: cs) = cs := h
  simp only [read, readSimple, htrim]

/-- The common log time is read item by item. -/
theorem readFields_commonLogText {t : Instant} {zone : Offset} (hzone : zone.seconds % 60 = 0)
    (hyear : 0 ≤ (t.localDate zone).year ∧ (t.localDate zone).year ≤ 9999) :
  readFields Layout.commonItems (t.commonLogText zone)
    = .ok (.commonLog (t.localDate zone).day (t.localDate zone).month (t.localDate zone).year
        (t.localSecond zone / 3600 : Nat) (t.localSecond zone / 60 % 60 : Nat)
        (t.localSecond zone % 60 + t.nanos / 1000000000 : Nat) zone.seconds)
  := by
  obtain ⟨-, hone, hordinal⟩ := Date.ofDayNumber_spec (t.localSeconds zone / 86400)
  obtain ⟨hmonth, hday, -, -⟩ := Date.month_day_bounds hone hordinal
  have hday' := Date.day_le hone hordinal
  rw [← Instant.localDate] at hmonth hday hday'
  have hlocal : t.localSecond zone < 86400 := by
    rw [Instant.localSecond]
    omega
  have hnanos : t.nanos / 1000000000 ≤ 1 := by
    have := t.valid.2.1
    omega
  have hdays : 1 ≤ ((t.localDate zone).day : Int) ∧ ((t.localDate zone).day : Int) ≤ 31 := by
    omega
  have hhours : (0 : Int) ≤ (t.localSecond zone / 3600 : Nat)
      ∧ ((t.localSecond zone / 3600 : Nat) : Int) ≤ 23 := by omega
  have hminutes : (0 : Int) ≤ (t.localSecond zone / 60 % 60 : Nat)
      ∧ ((t.localSecond zone / 60 % 60 : Nat) : Int) ≤ 59 := by omega
  have hseconds : (0 : Int) ≤ (t.localSecond zone % 60 + t.nanos / 1000000000 : Nat)
      ∧ ((t.localSecond zone % 60 + t.nanos / 1000000000 : Nat) : Int) ≤ 60 := by omega
  have hmonth' : (((t.localDate zone).month - 1 : Nat) : Int) + 1 = (t.localDate zone).month := by
    omega
  have hyear' : ((t.localDate zone).year.toNat : Int) = (t.localDate zone).year := by omega
  rw [readFields, Instant.commonLogText, Layout.commonItems, Item.clockTime, Item.zeroed,
    Item.zeroed, Item.zeroed, Item.zeroed, Item.zeroed]
  simp only [List.cons_append, List.nil_append]
  rw [foldlM_read_cons (Item.read_number (q := .day) rfl (by decide) (by decide) (by omega)
      (Fields.putWithin_of_none rfl hdays) _ _),
    foldlM_read_cons (Item.read_char _ _ _),
    foldlM_read_cons (Item.read_shortMonth (by omega) (Fields.put_of_none rfl _) _),
    foldlM_read_cons (Item.read_char _ _ _),
    foldlM_read_cons (Item.read_number (q := .year) rfl (by decide) (by decide) (by omega)
      (Fields.putWithin_of_none rfl ⟨by omega, by omega⟩) _ _),
    foldlM_read_cons (Item.read_char _ _ _),
    foldlM_read_cons (Item.read_number (q := .hour) rfl (by decide) (by decide) (by omega)
      (Fields.putHour_of_none rfl rfl hhours) _ _),
    foldlM_read_cons (Item.read_char _ _ _),
    foldlM_read_cons (Item.read_number (q := .minute) rfl (by decide) (by decide) (by omega)
      (Fields.putWithin_of_none rfl hminutes) _ _),
    foldlM_read_cons (Item.read_char _ _ _),
    foldlM_read_cons (Item.read_number (q := .second) rfl (by decide) (by decide) (by omega)
      (Fields.putWithin_of_none rfl hseconds) _ _),
    foldlM_read_cons (Item.read_space _ (trimStart_text _ _)),
    foldlM_read_cons (Item.read_offset hzone (Fields.put_of_none rfl _) _ _)]
  rw [hyear', hmonth']
  rfl

/-- Hours, minutes and seconds make up the second of the day, and a second 60 is that of a
leap second. -/
theorem localSecond_parts {t : Instant} {zone : Offset} (hzone : zone.seconds % 60 = 0)
    (hnanos : t.nanos % 1000000000 = 0) :
  (if ((t.localSecond zone % 60 + t.nanos / 1000000000 : Nat) : Int) = 60 then
      (((t.localSecond zone / 3600 : Nat) * 3600 + (t.localSecond zone / 60 % 60 : Nat) * 60 + 59
        : Int), 1000000000)
    else ((t.localSecond zone / 3600 : Nat) * 3600 + (t.localSecond zone / 60 % 60 : Nat) * 60
      + (t.localSecond zone % 60 + t.nanos / 1000000000 : Nat), 0))
    = ((t.localSecond zone : Int), t.nanos)
  := by
  obtain ⟨-, hlt, hleap⟩ := t.valid
  have hsecond : (t.localSecond zone : Int) % 60 = t.seconds % 60 := by
    rw [Instant.localSecond, Instant.localSeconds]
    omega
  split
  · have : t.nanos = 1000000000 := by omega
    simp only [Prod.mk.injEq]
    omega
  · have : t.nanos = 0 := by omega
    simp only [Prod.mk.injEq]
    omega

/-- The instant that a clock shows is that of its date and its second of the day. -/
theorem combine_localDate {t : Instant} {zone : Offset} (hzone : zone.seconds % 60 = 0)
    (hyear : 0 ≤ (t.localDate zone).year ∧ (t.localDate zone).year ≤ 9999) :
  ∃ shown, Fields.combine (t.localDate zone) (t.localSecond zone, t.nanos) = .ok shown
    ∧ zone.instantOf? shown = some t
  := by
  obtain ⟨hnumber, hone, hordinal⟩ := Date.ofDayNumber_spec (t.localSeconds zone / 86400)
  rw [← Instant.localDate] at hnumber hone hordinal
  have hshown : 86400 * (t.localDate zone).dayNumber + t.localSecond zone
      = t.localSeconds zone := by
    rw [hnumber, Instant.localSecond]
    omega
  have hlength := Date.yearLength_le (t.localDate zone).year
  have hvalid : Instant.Valid (t.localSeconds zone) t.nanos := by
    obtain ⟨-, hlt, hleap⟩ := t.valid
    rw [Date.dayNumber, Date.daysBefore, Date.epoch] at hnumber
    refine ⟨by omega, hlt, ?_⟩
    rw [Instant.localSeconds]
    omega
  have hback : t.localSeconds zone + -zone.seconds = t.seconds := by
    rw [Instant.localSeconds]
    omega
  refine ⟨⟨t.localSeconds zone, t.nanos, hvalid⟩, ?_, ?_⟩
  · apply Fields.combine_of_valid hshown hvalid
  · rw [Offset.instantOf?, Instant.later?]
    simp only [hback]
    rw [Instant.of?, dif_pos t.valid]

/-- The common log time of an instant is read as the instant. -/
theorem readTime_commonLogText {t : Instant} {zone : Offset} (hzone : zone.seconds % 60 = 0)
    (hnanos : t.nanos % 1000000000 = 0)
    (hyear : 0 ≤ (t.localDate zone).year ∧ (t.localDate zone).year ≤ 9999)
    (fallback : Offset) :
  readTime fallback .commonLog (String.ofList (t.commonLogText zone)) = .ok t
  := by
  have hfields := readFields_commonLogText hzone hyear
  obtain ⟨shown, hcombine, ht⟩ := combine_localDate hzone hyear
  rw [← localSecond_parts hzone hnanos] at hcombine
  obtain ⟨-, hone, hordinal⟩ := Date.ofDayNumber_spec (t.localSeconds zone / 86400)
  have hdate := Date.ofMonthDay?_month_day hone hordinal
    ⟨by rw [← Instant.localDate, Date.firstYear]; omega,
      by rw [← Instant.localDate, Date.lastYear]; omega⟩
  rw [readTime, readWithOffset, String.toList_ofList, hfields]
  apply Fields.instant_commonLog rfl rfl (Fields.date_commonLog hdate _ _ _ _)
    (Fields.time_commonLog _ _ _ _ _ _ _) hcombine ht

end LogFormat
