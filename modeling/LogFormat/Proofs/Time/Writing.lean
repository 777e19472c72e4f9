import LogFormat.Proofs.Time.Readable

/-!
# Written times

A `Writer` writes each item of a time format, at every instant and in every zone, by the conventions
of `Item.Prints`: numbers are digits with a sign or without, and blanks before them; names are
letters; offsets have two digits of hours, and maybe of minutes and seconds.  The sub-pattern of a
layout matches whatever a writer writes (`Writer.accepts_text`).  `Writer.standard` writes what a
local clock with a calendar shows.
-/

namespace LogFormat

open Pattern

/-! ### Conventions -/

/-- The texts that an item is written as.  Nothing is written for the loose form of an offset. -/
def Item.Prints (item : Item) (w : List Char) : Prop :=
  match item with
  | literal text => w = text
  | space text => w = text
  | number _ _ => ∃ blanks signs digits, w = blanks ++ (signs ++ digits)
      ∧ (∀ c ∈ blanks, c = ' ') ∧ signs ∈ [[], ['+'], ['-']]
      ∧ digits ≠ [] ∧ ∀ c ∈ digits, c.isDigit
  | monthName _ => w ≠ [] ∧ ∀ c ∈ w, c.isAlpha
  | weekdayName _ => w ≠ [] ∧ ∀ c ∈ w, c.isAlpha
  | halfDay upper => w ∈ if upper then [['A', 'M'], ['P', 'M']] else [['a', 'm'], ['p', 'm']]
  | fraction _ => w = [] ∨ ∃ digits, w = '.' :: digits ∧ digits ≠ [] ∧ ∀ c ∈ digits, c.isDigit
  | fractionDigits p => w.length = p.digits ∧ ∀ c ∈ w, c.isDigit
  | zoneName => w ≠ [] ∧ ∀ c ∈ w, ¬isBlank c
  | offset _ => ∃ s : OffsetSpelling, s.TwoDigits ∧ s ≠ .zulu ∧ w = s.text
  | looseOffset => False
  | dateTime => w ≠ [] ∧ '\n' ∉ w

/-- A way to write the items of a time format. -/
structure Writer where
  write : Item → Instant → Offset → List Char
  prints : ∀ item : Item, item ≠ .looseOffset → ∀ t zone, item.Prints (write item t zone)

/-- The text of items one after the other. -/
def Writer.text (writer : Writer) (items : List Item) (t : Instant) (zone : Offset) : List Char :=
  items.flatMap fun item => writer.write item t zone

/-! ### Sub-patterns -/

namespace Item

theorem has_letters {c : Char} :
  letters.has c ↔ c.isAlpha
  := by
  have hupper : 'A'.toNat = 65 ∧ 'Z'.toNat = 90 := by decide
  have hlower : 'a'.toNat = 97 ∧ 'z'.toNat = 122 := by decide
  change _ ↔ (decide (c.val ≥ 'A'.val ∧ c.val ≤ 'Z'.val)
    || (decide (c.val ≥ 'a'.val) && decide (c.val ≤ 'z'.val))) = true
  simp only [letters, CharSet.has, SetItem.has, List.any_cons, List.any_nil, Bool.or_false,
    Bool.bne_false, Bool.or_eq_true, Bool.and_eq_true, decide_eq_true_eq, hupper, hlower,
    UInt32.le_iff_toNat_le, ge_iff_le]
  rfl

theorem has_anyButLineFeed {c : Char} :
  CharSet.anyButLineFeed.has c ↔ c ≠ '\n'
  := by
  rw [← Char.toNat_inj.ne]
  simp [CharSet.anyButLineFeed, CharSet.has, SetItem.has]

/-- A pattern alone in a chain. -/
theorem mem_chain_singleton {p : Pattern} {w : List Char} :
  w ∈ (chain [p]).language ↔ w ∈ p.language
  := by
  rw [← language_sequence, language_sequence_singleton]

/-- What an item is written as matches its pattern. -/
theorem Prints.mem_language {item : Item} {w : List Char} (h : item.Prints w) :
  w ∈ (chain item.patterns).language
  := by
  cases item with
  | literal text | space text =>
    obtain rfl : w = text := h
    exact mem_language_literal w
  | number q pad =>
    obtain ⟨blanks, signs, digits, rfl, hblanks, hsigns, hne, hdigits⟩ := h
    have hblanks' : ∀ c ∈ blanks, isBlank c := by
      intro c hc
      rw [hblanks c hc]
      decide
    exact mem_language_number q pad hblanks' hsigns hne hdigits
  | monthName form | weekdayName form =>
    obtain ⟨hne, hletters⟩ := h
    exact mem_chain_singleton.2
      (mem_language_oneOrMore.2 ⟨hne, fun c hc => has_letters.2 (hletters c hc)⟩)
  | halfDay upper =>
    have hall : ∀ upper, ∀ w ∈ if upper then [['A', 'M'], ['P', 'M']] else [['a', 'm'], ['p', 'm']],
        ((chain (halfDay upper).patterns).captures? w).isSome := by
      decide +kernel
    exact captures?_isSome_iff.1 (hall upper w h)
  | fraction precision =>
    rw [patterns, mem_chain_singleton, mem_language_optional]
    obtain rfl | ⟨digits, rfl, hne, hdigits⟩ := h
    · exact .inr rfl
    · left
      have hdigits' : digits ∈ (oneOrMore SubPattern.digits .longest).language :=
        mem_language_oneOrMore.2 ⟨hne, fun c hc => SubPattern.has_digits.2 (hdigits c hc)⟩
      have hchain := append_mem_chain (mem_language_single.2 rfl : ['.'] ∈ _)
        (append_mem_chain hdigits' nil_mem_chain)
      rw [List.append_nil] at hchain
      rw [language_sequence]
      exact hchain
  | fractionDigits p =>
    obtain ⟨hlength, hdigits⟩ := h
    have hne : w ≠ [] := by
      rintro rfl
      cases p <;> cases hlength
    refine mem_chain_singleton.2 (mem_language_oneOrMore.2 ⟨hne, fun c hc => ?_⟩)
    rw [has_anyButLineFeed]
    rintro rfl
    cases hdigits _ hc
  | zoneName =>
    obtain ⟨hne, hname⟩ := h
    exact mem_chain_singleton.2 (mem_language_oneOrMore.2
      ⟨hne, fun c hc => SubPattern.has_nonblanks.2 (hname c hc)⟩)
  | offset form =>
    obtain ⟨s, hs, -, rfl⟩ := h
    exact OffsetSpelling.mem_language_iff.2 ⟨s, hs, rfl⟩
  | looseOffset => exact h.elim
  | dateTime =>
    obtain ⟨hne, hline⟩ := h
    refine mem_chain_singleton.2 (mem_language_oneOrMore.2 ⟨hne, fun c hc => ?_⟩)
    rw [has_anyButLineFeed]
    rintro rfl
    exact hline hc

end Item

/-- What items are written as one after the other matches their patterns. -/
theorem Writer.text_mem_language (writer : Writer) {items : List Item}
    (hitems : .looseOffset ∉ items) (t : Instant) (zone : Offset) :
  writer.text items t zone ∈ (chain (items.flatMap Item.patterns)).language
  := by
  induction items with
  | nil => exact nil_mem_chain
  | cons item items ih =>
    rw [List.mem_cons, not_or] at hitems
    obtain ⟨hitem, hitems⟩ := hitems
    have hprints := writer.prints item (Ne.symm hitem) t zone
    rw [Writer.text, List.flatMap_cons, List.flatMap_cons, language_chain_append]
    exact Language.mem_mul.2 ⟨_, hprints.mem_language, _, ih hitems, rfl⟩

/-- Whatever a writer writes for items, at every instant and in every zone, matches the sub-pattern
of their layout from end to end, unless one of them is the loose form of an offset. -/
theorem Writer.accepts_text (writer : Writer) (text : String) {items : List Item}
    (hitems : .looseOffset ∉ items) (t : Instant) (zone : Offset) :
  (Layout.strftime text items).Accepts (writer.text items t zone)
  := by
  rw [Layout.Accepts, (Layout.readsGroup_items text items).matches_iff, language_sequence]
  exact writer.text_mem_language hitems t zone

/-! ### What a clock shows -/

/-- The number that a local clock with a calendar shows for a quantity. -/
def Quantity.shownBy (q : Quantity) (t : Instant) (zone : Offset) : Int :=
  let d := t.localDate zone
  match q with
  | year => t.shows zone .year
  | century => t.shows zone .century
  | yearOfCentury => t.shows zone .yearOfCentury
  | weekYear => d.weekYear
  | weekYearOfCentury => d.weekYear % 100
  | quarter => d.quarter
  | month => t.shows zone .month
  | day => t.shows zone .day
  | weekFromSunday => d.weekFrom 6
  | weekFromMonday => d.weekFrom 0
  | week => d.week
  | weekdayFromSunday => (d.weekday + 1) % 7
  | weekdayFromMonday => d.weekday + 1
  | ordinal => t.shows zone .ordinal
  | hour => t.shows zone .hour
  | hourOfHalf => t.shows zone .hourOfHalf
  | minute => t.shows zone .minute
  | second => t.shows zone .second
  | nanosecond => t.shows zone .nanosecond
  | epochSeconds => t.seconds

/-- The text of a number that is filled up to a width.  With `plus` a positive number has a sign
too, and one more place for it. -/
def Pad.numberText (pad : Pad) (width : Nat) (plus : Bool) (n : Int) : List Char :=
  let sign := if n < 0 then ['-'] else if plus then ['+'] else []
  let width := if plus then width + 1 else width
  let digits := Nat.toDigits 10 n.natAbs
  match pad with
  | nothing => sign ++ digits
  | zero => sign ++ padded (width - sign.length) n.natAbs
  | blank => List.replicate (width - (sign ++ digits).length) ' ' ++ (sign ++ digits)

/-- A name in full, or its first three letters. -/
def NameForm.text (form : NameForm) (name : List Char) : List Char :=
  match form with
  | short => name.take 3
  | long => name

/-- A part of a second with so many digits. -/
def Precision.text (p : Precision) (nanos : Nat) : List Char :=
  padded p.digits (nanos / 10 ^ (9 - p.digits))

/-- The spelling of an offset.  Without seconds it is rounded to minutes, and without minutes the
rest of the hour is left out. -/
def OffsetForm.spelling (form : OffsetForm) (zone : Offset) : OffsetSpelling :=
  let behind := decide (zone.seconds < 0)
  let n := zone.seconds.natAbs
  let minutes := (n + 30) / 60
  match form with
  | plain => .minutes behind (minutes / 60) false (minutes % 60)
  | colon => .minutes behind (minutes / 60) true (minutes % 60)
  | seconds => .seconds behind (n / 3600) true (n / 60 % 60) true (n % 60)
  | hours => .hours behind (n / 3600)

/-- The name of a zone, which has seconds only if the offset does. -/
def Offset.name (zone : Offset) : List Char :=
  if zone.seconds % 60 = 0 then (OffsetForm.colon.spelling zone).text
  else (OffsetForm.seconds.spelling zone).text

namespace Item

/-- The text of an item that is not a composite of others. -/
def simpleText (item : Item) (t : Instant) (zone : Offset) : List Char :=
  let d := t.localDate zone
  match item with
  | literal text => text
  | space text => text
  | number q pad =>
    let n := q.shownBy t zone
    pad.numberText (q.width.getD 9) (q.isSigned && decide (n < 0 ∨ 9999 < n)) n
  | monthName form => form.text (monthNames.getD (d.month - 1) [])
  | weekdayName form => form.text (weekdayNames.getD d.weekday.toNat [])
  | halfDay upper =>
    if t.shows zone .half = 0 then if upper then ['A', 'M'] else ['a', 'm']
    else if upper then ['P', 'M'] else ['p', 'm']
  | fraction none => Instant.fractionText t.shownNanos
  | fraction (some p) => '.' :: p.text t.shownNanos
  | fractionDigits p => p.text t.shownNanos
  | zoneName => zone.name
  | offset form => (form.spelling zone).text
  | looseOffset => []
  | dateTime => []

/-- The items that a full date and time is written as. -/
def fullItems : List Item :=
  fullDate ++ char 'T' :: (clockTime ++ [fraction none, offset .colon])

/-- The text of an item. -/
def clockText (item : Item) (t : Instant) (zone : Offset) : List Char :=
  match item with
  | dateTime => fullItems.flatMap fun item => item.simpleText t zone
  | item => item.simpleText t zone

end Item

/-! ### The conventions are kept -/

theorem padded_ne_nil (width n : Nat) :
  padded width n ≠ []
  := by
  rw [padded, ne_eq, List.append_eq_nil_iff]
  exact fun h => Nat.toDigits_ne_nil h.2

/-- A number that is filled up is written as one. -/
theorem Item.prints_numberText (q : Quantity) (pad : Pad) (width : Nat) (plus : Bool) (n : Int) :
  (number q pad).Prints (pad.numberText width plus n)
  := by
  have hdigits : ∀ c ∈ Nat.toDigits 10 n.natAbs, c.isDigit := fun _ => isDigit_of_mem_toDigits
  have hsign : (if n < 0 then ['-'] else if plus then ['+'] else []) ∈ [[], ['+'], ['-']] := by
    split_ifs <;> decide
  cases pad with
  | nothing => exact ⟨[], _, _, rfl, by simp, hsign, Nat.toDigits_ne_nil, hdigits⟩
  | zero =>
    exact ⟨[], _, _, rfl, by simp, hsign, padded_ne_nil _ _, fun _ => isDigit_of_mem_padded⟩
  | blank =>
    exact ⟨_, _, _, rfl, fun _ => List.eq_of_mem_replicate, hsign, Nat.toDigits_ne_nil, hdigits⟩

/-- A number that is filled up with zeros has no blanks. -/
theorem Pad.not_isBlank_numberText {width : Nat} {plus : Bool} {n : Int} {c : Char}
    (h : c ∈ Pad.zero.numberText width plus n) :
  ¬isBlank c
  := by
  obtain h | h := List.mem_append.1 h
  · split_ifs at h
    · rw [List.mem_singleton.1 h]
      decide
    · rw [List.mem_singleton.1 h]
      decide
    · cases h
  · exact not_isBlank_of_isDigit (isDigit_of_mem_padded h)

/-- A part of a second has so many digits. -/
theorem Precision.length_text (p : Precision) {nanos : Nat} (h : nanos < 1000000000) :
  (p.text nanos).length = p.digits
  := by
  apply length_padded
  · cases p <;> decide
  · cases p <;> simp only [digits] <;> omega

/-- The fewest digits that are exact are none, or a point and digits. -/
theorem prints_fractionText (nanos : Nat) :
  (Item.fraction none).Prints (Instant.fractionText nanos)
  := by
  have hpart : ∀ width n, (Item.fraction none).Prints ('.' :: padded width n) := fun width n =>
    .inr ⟨_, rfl, padded_ne_nil width n, fun _ => isDigit_of_mem_padded⟩
  rw [Instant.fractionText]
  split_ifs
  · exact .inl rfl
  · exact hpart _ _
  · exact hpart _ _
  · exact hpart _ _

/-- A part of a second with a point has no blanks. -/
theorem not_isBlank_of_prints_fraction {precision : Option Precision} {w : List Char}
    (h : (Item.fraction precision).Prints w) :
  ∀ c ∈ w, ¬isBlank c
  := by
  obtain rfl | ⟨digits, rfl, -, hdigits⟩ := h
  · simp
  · exact List.forall_mem_cons.2 ⟨by decide, fun c hc => not_isBlank_of_isDigit (hdigits c hc)⟩

namespace OffsetSpelling

/-- The spelling of an offset has numbers of two digits, and is not the letter Z. -/
theorem twoDigits_spelling (form : OffsetForm) (zone : Offset) :
  (form.spelling zone).TwoDigits ∧ form.spelling zone ≠ .zulu
  := by
  have hbounds := zone.bounds
  cases form with
  | plain | colon => exact ⟨⟨by omega, by omega⟩, by rintro ⟨⟩⟩
  | seconds => exact ⟨⟨by omega, by omega, by omega⟩, by rintro ⟨⟩⟩
  | hours =>
    refine ⟨?_, by rintro ⟨⟩⟩
    rw [OffsetForm.spelling, TwoDigits]
    omega

end OffsetSpelling

namespace Item

/-- A name in one of its forms consists of letters. -/
theorem isAlpha_name (form : NameForm) :
  (∀ i < 12, form.text (monthNames.getD i []) ≠ []
      ∧ ∀ c ∈ form.text (monthNames.getD i []), c.isAlpha)
    ∧ ∀ i < 7, form.text (weekdayNames.getD i []) ≠ []
      ∧ ∀ c ∈ form.text (weekdayNames.getD i []), c.isAlpha
  := by
  have hletters : (∀ i < 12, form.text (monthNames.getD i []) ≠ []
        ∧ (form.text (monthNames.getD i [])).all Char.isAlpha)
      ∧ ∀ i < 7, form.text (weekdayNames.getD i []) ≠ []
        ∧ (form.text (weekdayNames.getD i [])).all Char.isAlpha := by
    cases form <;> decide
  simpa only [List.all_eq_true] using hletters

/-- What a clock shows for an item keeps the conventions. -/
theorem prints_simpleText {item : Item} (hloose : item ≠ looseOffset) (hitem : item ≠ dateTime)
    (t : Instant) (zone : Offset) :
  item.Prints (item.simpleText t zone)
  := by
  obtain ⟨-, hone, hordinal⟩ := Date.ofDayNumber_spec (t.localSeconds zone / 86400)
  rw [← Instant.localDate] at hone hordinal
  obtain ⟨hmonth, -⟩ := Date.month_day_bounds hone hordinal
  have hweekday : (t.localDate zone).weekday.toNat < 7 := by
    rw [Date.weekday, Date.weekdayOf]
    omega
  have hnanos : t.shownNanos < 1000000000 := Nat.mod_lt _ (by decide)
  cases item with
  | looseOffset => exact absurd rfl hloose
  | dateTime => exact absurd rfl hitem
  | literal text | space text => rfl
  | number q pad => exact prints_numberText q pad _ _ _
  | monthName form => exact (isAlpha_name form).1 _ (by omega)
  | weekdayName form => exact (isAlpha_name form).2 _ hweekday
  | halfDay upper =>
    rw [Prints, simpleText]
    split_ifs <;> decide
  | fraction precision =>
    cases precision with
    | none => exact prints_fractionText _
    | some p => exact .inr ⟨_, rfl, padded_ne_nil _ _, fun _ => isDigit_of_mem_padded⟩
  | fractionDigits p => exact ⟨p.length_text hnanos, fun _ => isDigit_of_mem_padded⟩
  | zoneName =>
    rw [Prints, simpleText, Offset.name]
    split_ifs
    · exact ⟨OffsetSpelling.text_ne_nil _, OffsetSpelling.not_isBlank_of_mem _⟩
    · exact ⟨OffsetSpelling.text_ne_nil _, OffsetSpelling.not_isBlank_of_mem _⟩
  | offset form =>
    obtain ⟨hdigits, hzulu⟩ := OffsetSpelling.twoDigits_spelling form zone
    exact ⟨_, hdigits, hzulu, rfl⟩

/-- The items of a full date and time are written without blanks. -/
theorem not_isBlank_fullItems {item : Item} (hitem : item ∈ fullItems) (t : Instant)
    (zone : Offset) :
  ∀ c ∈ item.simpleText t zone, ¬isBlank c
  := by
  have hkinds : ∀ item ∈ fullItems, (∃ q, item = zeroed q)
      ∨ (∃ c ∈ ['-', 'T', ':'], item = char c) ∨ item = fraction none ∨ item = offset .colon := by
    simp [fullItems, fullDate, clockTime, zeroed, char]
  obtain ⟨q, rfl⟩ | ⟨d, hd, rfl⟩ | rfl | rfl := hkinds item hitem
  · exact fun c => Pad.not_isBlank_numberText
  · have hsign : ¬isBlank d := by
      simp only [List.mem_cons, List.not_mem_nil, or_false] at hd
      rcases hd with rfl | rfl | rfl <;> decide
    exact List.forall_mem_singleton.2 hsign
  · exact not_isBlank_of_prints_fraction (prints_fractionText _)
  · exact OffsetSpelling.not_isBlank_of_mem (OffsetForm.colon.spelling zone)

/-- What a clock shows for an item, composite or not, keeps the conventions. -/
theorem prints_clockText {item : Item} (hloose : item ≠ looseOffset) (t : Instant)
    (zone : Offset) :
  item.Prints (item.clockText t zone)
  := by
  by_cases hitem : item = dateTime
  · subst hitem
    constructor
    · have hmem : 'T' ∈ dateTime.clockText t zone :=
        List.mem_flatMap.2 ⟨char 'T', by decide, List.mem_singleton_self _⟩
      exact List.ne_nil_of_mem hmem
    · intro hline
      obtain ⟨item, hitem, hline⟩ := List.mem_flatMap.1 hline
      exact not_isBlank_fullItems hitem t zone _ hline (by decide)
  · have htext : item.clockText t zone = item.simpleText t zone := by
      rw [clockText]
      exact hitem
    rw [htext]
    exact prints_simpleText hloose hitem t zone

end Item

/-- The writer of what a local clock with a calendar shows. -/
def Writer.standard : Writer where
  write := Item.clockText
  prints _ hloose t zone := Item.prints_clockText hloose t zone

/-- A Tuesday in October 2023, nine hours ahead of UTC. -/
theorem Writer.accepts_text_october :
  let items := [.weekdayName .short, .space [' '], .zeroed .day, .char '/', .monthName .short,
    .char '/', .zeroed .year, .space [' ']] ++ Item.clockTime ++ [.space [' '], .offset .plain]
  let t : Instant := ⟨1696946136, 0, by decide⟩
  let zone : Offset := ⟨32400, by decide⟩
  .looseOffset ∉ items
    ∧ Writer.standard.text items t zone = "Tue 10/Oct/2023 22:55:36 +0900".toList
    ∧ (Layout.strftime "%a %d/%b/%Y %H:%M:%S %z" items).Accepts
        "Tue 10/Oct/2023 22:55:36 +0900".toList
  := by
  intro items t zone
  have hitems : .looseOffset ∉ items := by decide
  have htext : Writer.standard.text items t zone = "Tue 10/Oct/2023 22:55:36 +0900".toList := by
    decide +kernel
  refine ⟨hitems, htext, ?_⟩
  rw [← htext]
  exact Writer.standard.accepts_text "%a %d/%b/%Y %H:%M:%S %z" hitems t zone

end LogFormat
