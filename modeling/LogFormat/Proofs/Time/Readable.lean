import LogFormat.Proofs.Time.OffsetTexts
import LogFormat.Proofs.Time.StatedClock
import LogFormat.Proofs.Time.StatedOffset

/-!
# Time formats that can be read

A parameter is no time format if it shows no date, or an offset without an hour and a minute.  But
an hour of a half of the day passes for an hour without the half, and a part of a second passes
without the second, and then no text is read.  Nor is one if digits follow the seconds since 1970,
or text follows the name of a zone, which take them up.  Every other format whose items are
separated can be read: its text at the first instant of 1970 matches its sub-pattern and is read as
this instant (`readable_of_parameter`).
-/

namespace LogFormat

open Pattern Pattern.Reading

/-! ### Texts and patterns -/

namespace Item

/-- Literal text matches itself. -/
theorem mem_language_literal (text : List Char) :
  text ∈ (chain (text.map fun c => one (.single c))).language
  := by
  induction text with
  | nil => exact nil_mem_chain
  | cons c text ih => exact append_mem_chain (mem_language_single.2 rfl) ih

/-- Digits with a sign or without, and blanks before them, match the pattern of a number. -/
theorem mem_language_number (q : Quantity) (pad : Pad) {blanks signs digits : List Char}
    (hblanks : ∀ c ∈ blanks, isBlank c) (hsigns : signs ∈ [[], ['+'], ['-']])
    (hne : digits ≠ []) (hdigits : ∀ c ∈ digits, c.isDigit) :
  blanks ++ (signs ++ digits) ∈ (chain (number q pad).patterns).language
  := by
  have hblanks' : blanks ∈ (many .blanks .longest).language := by
    rw [mem_language_many]
    intro c hc
    simp [CharSet.blanks, CharSet.has, SetItem.has, hblanks c hc]
  have hsigns' : signs ∈ (optional .longest (one sign)).language := by
    simp only [List.mem_cons, List.not_mem_nil, or_false] at hsigns
    rw [mem_language_optional, mem_language_one]
    obtain rfl | rfl | rfl := hsigns
    · exact .inr rfl
    · exact .inl ⟨'+', rfl, by decide⟩
    · exact .inl ⟨'-', rfl, by decide⟩
  have hdigits' : digits ∈ (oneOrMore SubPattern.digits .longest).language :=
    mem_language_oneOrMore.2 ⟨hne, fun c hc => SubPattern.has_digits.2 (hdigits c hc)⟩
  have hchain := append_mem_chain hblanks'
    (append_mem_chain hsigns' (append_mem_chain hdigits' nil_mem_chain))
  rwa [List.append_nil] at hchain

/-- A number at the first instant of 1970 matches the pattern of a number. -/
theorem number_sample_mem_language (q : Quantity) (pad : Pad) :
  (number q pad).sample ∈ (chain (number q pad).patterns).language
  := by
  have hblank : ∀ c ∈ [' '], isBlank c := List.forall_mem_singleton.2 (by decide)
  have hne : padded (q.width.getD 1) q.atEpoch ≠ [] := by
    obtain ⟨c, ds, hcons, -⟩ := q.exists_sample_eq_cons
    rw [hcons]
    exact List.cons_ne_nil c ds
  have hsample := mem_language_number q pad hblank List.mem_cons_self hne
    fun _ => isDigit_of_mem_padded
  exact hsample

/-- The text of an item at the first instant of 1970 matches its pattern. -/
theorem sample_mem_language (item : Item) :
  item.steps.flatMap Step.sample ∈ (chain item.patterns).language
  := by
  have hsimple : ∀ {item : Item}, item ≠ dateTime →
      item.steps.flatMap Step.sample = item.sample := by
    intro item hitem
    rw [steps_of_ne hitem, List.flatMap_cons, List.flatMap_nil, List.append_nil]
    rfl
  have hmatches : ∀ {p : Pattern} {w : List Char}, (p.captures? w).isSome → w ∈ p.language :=
    captures?_isSome_iff.1
  cases item with
  | dateTime => exact hmatches (by decide +kernel)
  | literal text | space text =>
    rw [hsimple (by rintro ⟨⟩)]
    exact mem_language_literal text
  | number q pad =>
    rw [hsimple (by rintro ⟨⟩)]
    exact number_sample_mem_language q pad
  | monthName form | weekdayName form =>
    rw [hsimple (by rintro ⟨⟩)]
    cases form <;> exact hmatches (by decide +kernel)
  | offset form =>
    rw [hsimple (by rintro ⟨⟩)]
    exact OffsetSpelling.mem_language_iff.2
      ⟨.minutes false 0 false 0, ⟨by decide, by decide⟩, rfl⟩
  | halfDay upper =>
    rw [hsimple (by rintro ⟨⟩)]
    cases upper <;> exact hmatches (by decide +kernel)
  | fraction precision =>
    rw [hsimple (by rintro ⟨⟩)]
    exact append_mem_chain (mem_language_optional.2 (.inr rfl)) nil_mem_chain
  | fractionDigits p =>
    rw [hsimple (by rintro ⟨⟩)]
    cases p <;> exact hmatches (by decide +kernel)
  | zoneName | looseOffset =>
    rw [hsimple (by rintro ⟨⟩)]
    exact hmatches (by decide +kernel)

/-- The text of items at the first instant of 1970 matches their patterns one after the other. -/
theorem textAtEpoch_mem_language (items : List Item) :
  textAtEpoch items ∈ (chain (items.flatMap patterns)).language
  := by
  induction items with
  | nil => exact nil_mem_chain
  | cons item items ih =>
    rw [textAtEpoch, List.flatMap_cons, List.flatMap_cons, List.flatMap_append,
      language_chain_append]
    exact Language.mem_mul.2 ⟨_, item.sample_mem_language, _, ih, rfl⟩

end Item

/-! ### Dates and offsets -/

namespace Item

/-- The slots of which an item that shows a part fills one. -/
def Part.slots : Part → List Slot
  | .year => [.year, .yearOfCentury]
  | .month => [.month]
  | .day => [.day]
  | .ordinal => [.ordinal]
  | .hour => [.hourOfHalf]
  | .minute => [.minute]
  | .epoch => [.epochSeconds]
  | .complete => [.year, .month, .day]
  | .offset => [.offset]

/-- An item that shows a part fills a slot of the part. -/
theorem exists_slot_of_mem_parts {item : Item} {part : Part} (h : item.parts.contains part) :
  ∃ slot ∈ part.slots, slot ∈ item.steps.flatMap Step.slots
  := by
  cases item with
  | dateTime => cases part <;> revert h <;> decide
  | number q pad => cases q <;> cases part <;> revert h <;> cases pad <;> decide
  | offset form => cases part <;> revert h <;> cases form <;> decide
  | monthName form => cases part <;> revert h <;> cases form <;> decide
  | _ => cases part <;> cases h

section slots

variable {items : List Item} {f : Fields}

/-- Of the slots of a part that the items show, one is filled. -/
theorem exists_filled_of_someShows
    (hslots : f.Filled ((items.flatMap Item.steps).flatMap Step.slots))
    {part : Part} (h : someShows items part) :
  ∃ slot ∈ part.slots, ∃ v, f slot = some v
  := by
  obtain ⟨item, hitem, hpart⟩ := List.any_eq_true.1 h
  obtain ⟨slot, hslot, hmem⟩ := exists_slot_of_mem_parts hpart
  refine ⟨slot, hslot, (hslots slot).2 ?_⟩
  rw [List.flatMap_assoc]
  exact List.mem_flatMap.2 ⟨item, hitem, hmem⟩

/-- Only a full date and time is complete. -/
theorem dateTime_mem_of_someShows (h : someShows items .complete) :
  dateTime ∈ items
  := by
  obtain ⟨item, hitem, hpart⟩ := List.any_eq_true.1 h
  cases item with
  | dateTime => exact hitem
  | number q pad => cases q <;> cases hpart
  | _ => cases hpart

/-- If the items show a date, the text at the first instant of 1970 has the seconds since 1970 or
the date of this instant. -/
theorem date_of_showDate (hf : f.AtEpoch)
    (hslots : f.Filled ((items.flatMap Item.steps).flatMap Step.slots))
    (h : showDate items) :
  (∃ v, f .epochSeconds = some v) ∨ f.date = .ok .newYear1970
  := by
  have hfilled : ∀ {part : Part} {slot : Slot}, part.slots = [slot] → someShows items part →
      ∃ v, f slot = some v := by
    intro part slot hpart hshows
    obtain ⟨slot', hmem, hv⟩ := exists_filled_of_someShows hslots hshows
    rw [hpart] at hmem
    obtain rfl := List.mem_singleton.1 hmem
    exact hv
  have hdate : (((∃ v, f .year = some v) ∨ ∃ v, f .yearOfCentury = some v)
      ∧ ((∃ v, f .ordinal = some v) ∨ (∃ v, f .month = some v) ∧ ∃ v, f .day = some v)) →
      f.date = .ok .newYear1970 := by
    intro hstated
    obtain hdate | ⟨-, hnone⟩ := hf.date_eq_or
    · exact hdate
    · exact absurd hstated hnone
  simp only [showDate, Bool.or_eq_true, Bool.and_eq_true] at h
  obtain (hcomplete | hepoch) | ⟨hyear, hday⟩ := h
  · have hmem := dateTime_mem_of_someShows hcomplete
    have hfull : ∀ slot ∈ [Slot.year, .month, .day], ∃ v, f slot = some v := by
      intro slot hslot
      have hsteps : slot ∈ dateTime.steps.flatMap Step.slots := by
        revert slot
        decide
      rw [hslots slot, List.flatMap_assoc]
      exact List.mem_flatMap.2 ⟨_, hmem, hsteps⟩
    exact .inr (hdate ⟨.inl (hfull .year (by decide)),
      .inr ⟨hfull .month (by decide), hfull .day (by decide)⟩⟩)
  · exact .inl (hfilled rfl hepoch)
  · have hyear : (∃ v, f .year = some v) ∨ ∃ v, f .yearOfCentury = some v := by
      obtain ⟨slot, hslot, hv⟩ := exists_filled_of_someShows hslots hyear
      simp only [Part.slots, List.mem_cons, List.not_mem_nil, or_false] at hslot
      obtain rfl | rfl := hslot
      · exact .inl hv
      · exact .inr hv
    refine .inr (hdate ⟨hyear, ?_⟩)
    obtain hordinal | ⟨hmonth, hday⟩ := hday
    · exact .inl (hfilled rfl hordinal)
    · exact .inr ⟨hfilled rfl hmonth, hfilled rfl hday⟩

end slots

end Item

/-! ### Items that run together -/

/-- Digits that are read without a bound are read up to the last one. -/
theorem endsDigits_of_readDigits {least : Nat} {cs rest : List Char} {n : Int}
    (h : readDigits least none cs = .ok (n, rest)) :
  EndsDigits rest
  := by
  simp only [readDigits] at h
  split_ifs at h
  cases h
  have hdrop := @List.drop_left _ (cs.takeWhile Char.isDigit) (cs.dropWhile Char.isDigit)
  rw [List.takeWhile_append_dropWhile] at hdrop
  rw [hdrop]
  intro c hc
  have hhead := List.head?_dropWhile_not Char.isDigit cs
  rw [Option.mem_def.1 hc] at hhead
  simp [hhead]

namespace Item

/-- Whether an item takes up what the text of the next item begins with: the seconds since 1970
take all digits, and the name of a zone takes everything but a blank. -/
def takesUp : Item → Item → Bool
  | number .epochSeconds _, literal text => text.head?.any Char.isDigit
  | zoneName, literal text => text.head?.any fun c => !isBlank c
  | number .epochSeconds _, fractionDigits _ => true
  | zoneName, fractionDigits _ => true
  | _, _ => false

/-- Whether some item takes up what the text of the next begins with. -/
def runTogether : List Item → Bool
  | item :: next :: items => item.takesUp next || runTogether (next :: items)
  | _ => false

/-- What a literal text is read from begins with it. -/
theorem head?_of_read_literal {c : Char} {text cs rest : List Char} {f f' : Fields}
    (h : (literal (c :: text)).read f cs = .ok (f', rest)) :
  cs.head? = some c
  := by
  obtain ⟨⟨⟨⟩, rest'⟩, hliteral, -⟩ := bind_eq_ok.1 h
  rw [readLiteral] at hliteral
  split_ifs at hliteral with _ hbegins
  obtain ⟨others, rfl⟩ := List.isPrefixOf_iff_prefix.1 hbegins
  rfl

/-- What digits are read from begins with a digit. -/
theorem head?_of_read_fractionDigits {p : Precision} {cs rest : List Char} {f f' : Fields}
    (h : (fractionDigits p).read f cs = .ok (f', rest)) :
  ∃ c, cs.head? = some c ∧ c.isDigit
  := by
  obtain ⟨n, hread, -⟩ := reading_eq_ok (f.put .nanosecond) h
  cases cs with
  | nil => cases p <;> cases hread
  | cons c cs =>
    refine ⟨c, rfl, ?_⟩
    by_contra hdigit
    have hpositive : 0 < p.digits := by cases p <;> decide
    have hnone : ((c :: cs).take p.digits).takeWhile Char.isDigit = [] := by
      cases p <;> exact List.takeWhile_cons_of_neg hdigit
    simp only [readFractionDigits, readDigits, hnone, List.length_nil, if_pos hpositive] at hread
    split_ifs at hread <;> cases hread

/-- What a number of seconds since 1970 leaves does not begin with a digit. -/
theorem endsDigits_of_read_epochSeconds {pad : Pad} {cs rest : List Char} {f f' : Fields}
    (h : (number .epochSeconds pad).read f cs = .ok (f', rest)) :
  EndsDigits rest
  := by
  obtain ⟨n, hread, -⟩ := reading_eq_ok (Quantity.epochSeconds.store f) h
  exact endsDigits_of_readDigits hread

/-- What the name of a zone leaves begins with a blank. -/
theorem isBlank_of_read_zoneName {cs rest : List Char} {f f' : Fields}
    (h : zoneName.read f cs = .ok (f', rest)) :
  ∀ c ∈ rest.head?, isBlank c
  := by
  cases h
  intro c hc
  have hhead := List.head?_dropWhile_not (fun c => !isBlank c) cs
  rw [Option.mem_def.1 hc] at hhead
  simpa using hhead

/-- An item that has been read does not take up what the text of the next begins with, if the next
is read after it. -/
theorem takesUp_of_read {item next : Item} {cs cs₁ cs₂ : List Char} {f f₁ f₂ : Fields}
    (hitem : item.read f cs = .ok (f₁, cs₁)) (hnext : next.read f₁ cs₁ = .ok (f₂, cs₂)) :
  item.takesUp next = false
  := by
  unfold takesUp
  split
  · next pad text =>
    cases text with
    | nil => rfl
    | cons c text =>
      have hc := endsDigits_of_read_epochSeconds hitem c (head?_of_read_literal hnext)
      simpa using hc
  · next text =>
    cases text with
    | nil => rfl
    | cons c text =>
      have hc := isBlank_of_read_zoneName hitem c (head?_of_read_literal hnext)
      simpa using hc
  · next pad p =>
    obtain ⟨c, hhead, hdigit⟩ := head?_of_read_fractionDigits hnext
    exact absurd hdigit (endsDigits_of_read_epochSeconds hitem c hhead)
  · next p =>
    obtain ⟨c, hhead, hdigit⟩ := head?_of_read_fractionDigits hnext
    exact absurd (isBlank_of_read_zoneName hitem c hhead) (not_isBlank_of_isDigit hdigit)
  · rfl

/-- If items read a text, none of them takes up what the text of the next begins with. -/
theorem runTogether_of_foldlM {items : List Item} {cs : List Char} {f : Fields}
    {result : Fields × List Char}
    (h : items.foldlM (fun (f, cs) item => item.read f cs) (f, cs) = .ok result) :
  runTogether items = false
  := by
  induction items generalizing f cs with
  | nil => rfl
  | cons item items ih =>
    rw [List.foldlM_cons] at h
    obtain ⟨⟨f₁, cs₁⟩, hitem, hitems⟩ := bind_eq_ok.1 h
    cases items with
    | nil => rfl
    | cons next items =>
      rw [runTogether, ih hitems, Bool.or_false]
      rw [List.foldlM_cons] at hitems
      obtain ⟨⟨f₂, cs₂⟩, hnext, -⟩ := bind_eq_ok.1 hitems
      exact takesUp_of_read hitem hnext

end Item

/-! ### Layouts -/

/-- Without a time of day, a clock that shows the first day of 1970 is taken to show midnight. -/
theorem Fields.AtEpoch.shown_or_midnight {f : Fields} (hf : f.AtEpoch)
    (h : (∃ v, f .epochSeconds = some v) ∨ f.date = .ok .newYear1970) :
  (match f.shown 0 with
    | .ok shown => .ok shown
    | .error _ => do combine (← f.date) (0, 0)) = Except.ok Instant.zero
  := by
  have hmidnight : combine .newYear1970 (0, 0) = .ok .zero := by decide +kernel
  by_cases hstated : (∃ v, f .epochSeconds = some v)
      ∨ f.date = .ok .newYear1970 ∧ ∃ time, f.time = .ok time
  · rw [hf.shown_eq hstated]
  · obtain ⟨hepoch, htime⟩ := not_or.1 hstated
    have hdate := h.resolve_left hepoch
    have hnone : f .epochSeconds = none :=
      Option.eq_none_iff_forall_ne_some.2 fun v hv => hepoch ⟨v, hv⟩
    cases hshown : f.shown 0 with
    | ok shown =>
      obtain ⟨d, time, -, hok, -⟩ := (shown_eq_ok hnone 0).1 hshown
      exact absurd ⟨hdate, time, hok⟩ htime
    | error e =>
      rw [hdate]
      exact hmidnight

namespace Layout

/-- Alone, the sub-pattern of the layout matches the whole of the word. -/
def Accepts (l : Layout) (word : List Char) : Prop :=
  ∃ p, LinePattern.read l.subPattern = .ok p ∧ (p.captures? (String.ofList word)).isSome

/-- Some text that the sub-pattern matches is read as an instant, in some zone for texts without an
offset. -/
def Readable (l : Layout) : Prop :=
  ∃ word zone t, l.Accepts word ∧ readTime zone l (String.ofList word) = .ok t

/-- Whether a layout with an offset also has the seconds since 1970 or a time of day. -/
def hasClock : Layout → Bool
  | strftime _ items =>
    !Item.showOffset items || Item.someShows items .epoch || Item.showClock items
  | _ => true

/-- Whether the text of each item of the layout ends where those of the others begin. -/
def separated : Layout → Bool
  | strftime _ items => Step.separated (items.flatMap Item.steps)
  | _ => true

/-- Whether some item of the layout takes up what the text of the next begins with. -/
def runsTogether : Layout → Bool
  | strftime _ items => Item.runTogether items
  | _ => false

/-- A parameter that is a time format is divided into items that show a date. -/
theorem ofText?_of_ofParameter {parameter text : String} {items : List Item}
    (h : ofParameter (some parameter) = .ok (.strftime text items)) :
  text = String.ofList (withoutMoment parameter.toList)
    ∧ Item.ofText? (withoutMoment parameter.toList) = some items ∧ Item.showDate items
  := by
  simp only [ofParameter] at h
  have hformat : ofFormat (withoutMoment parameter.toList) = .ok (.strftime text items) := by
    split_ifs at h <;> first | exact h | cases h
  rw [ofFormat] at hformat
  split at hformat
  · cases hformat
  · next items' htext =>
    split_ifs at hformat with hdate
    cases hformat
    exact ⟨rfl, htext, by simpa using hdate⟩

/-- The items of the format of a parameter are those of a text and show a date. -/
theorem items_of_ofParameter {parameter : Option String} {text : String} {items : List Item}
    (h : ofParameter parameter = .ok (.strftime text items)) :
  (∀ item ∈ items, item.WellFormed) ∧ Item.showDate items
  := by
  cases parameter with
  | none => cases h
  | some parameter =>
    obtain ⟨-, htext, hdate⟩ := ofText?_of_ofParameter h
    exact ⟨Item.wellFormed_of_ofText? htext, hdate⟩

/-- If a text with an offset is read, and not as seconds since 1970, every text states a time of
day. -/
theorem hasClock_of_readTime {zone : Offset} {l : Layout} {raw : String} {t : Instant}
    (h : readTime zone l raw = .ok t) :
  l.hasClock
  := by
  cases l with
  | commonLog | epoch unit => rfl
  | strftime text items =>
    cases hoffset : Item.showOffset items with
    | false => simp [hasClock, hoffset]
    | true =>
      cases hepoch : Item.someShows items .epoch with
      | true => simp [hasClock, hepoch]
      | false =>
        rw [readTime, if_pos hoffset] at h
        obtain ⟨f, hfields, hinstant⟩ := bind_eq_ok.1 h
        have hsteps := readItems_of_readFields hfields
        rw [readItems_eq_steps] at hsteps
        obtain ⟨o, -, -, htime⟩ := Fields.instant_eq_ok (bounded_of_readSteps hsteps)
          (epochSeconds_of_readSteps hepoch hsteps) hinstant
        simp [hasClock, Item.showClock_of_time hsteps ⟨_, htime⟩]

/-- If a text is read, no item takes up what the text of the next begins with. -/
theorem runsTogether_of_readTime {zone : Offset} {l : Layout} {raw : String} {t : Instant}
    (h : readTime zone l raw = .ok t) :
  l.runsTogether = false
  := by
  cases l with
  | commonLog | epoch unit => rfl
  | strftime text items =>
    have hfields : ∃ f, readFields items raw.toList = .ok f := by
      rw [readTime] at h
      split_ifs at h
      · obtain ⟨f, hfields, -⟩ := bind_eq_ok.1 h
        exact ⟨f, hfields⟩
      · obtain ⟨shown, hshown, -⟩ := bind_eq_ok.1 h
        obtain ⟨f, hfields, -⟩ := bind_eq_ok.1 hshown
        exact ⟨f, hfields⟩
    obtain ⟨f, hfields⟩ := hfields
    exact Item.runTogether_of_foldlM (readItems_of_readFields hfields)

/-- The text of a format at the first instant of 1970 is read as this instant. -/
theorem readTime_textAtEpoch {text : String} {items : List Item}
    (hwell : ∀ item ∈ items, item.WellFormed) (hdate : Item.showDate items)
    (hclock : (strftime text items).hasClock) (hseparated : (strftime text items).separated) :
  readTime .utc (strftime text items) (String.ofList (Item.textAtEpoch items)) = .ok .zero
  := by
  obtain ⟨f, hread, hf, hslots⟩ := readFields_sample hwell hseparated
  have hdate := Item.date_of_showDate hf hslots hdate
  rw [readTime, String.toList_ofList]
  cases hoffset : Item.showOffset items with
  | true =>
    rw [if_pos rfl, readWithOffset]
    refine bind_eq_ok.2 ⟨f, hread, hf.instant_eq ?_ ?_⟩
    · obtain ⟨slot, hslot, hv⟩ := Item.exists_filled_of_someShows hslots hoffset
      obtain rfl := List.mem_singleton.1 hslot
      exact hv
    · rw [hasClock, hoffset] at hclock
      cases hepoch : Item.someShows items .epoch with
      | true =>
        obtain ⟨slot, hslot, hv⟩ := Item.exists_filled_of_someShows hslots hepoch
        obtain rfl := List.mem_singleton.1 hslot
        exact .inl hv
      | false =>
        have hclock : Item.showClock items := by simpa [hepoch] using hclock
        exact hdate.imp_right fun hdate => ⟨hdate, Item.exists_time_of_showClock hslots hclock⟩
  | false =>
    have hshown : readShown items (Item.textAtEpoch items) = .ok .zero :=
      bind_eq_ok.2 ⟨f, hread, hf.shown_or_midnight hdate⟩
    have hutc : Offset.utc.instantOf? .zero = some .zero := Offset.instantOf?_eq_self_iff.2 rfl
    have hlocal : readLocal .utc items (Item.textAtEpoch items) = .ok .zero := by
      refine bind_eq_ok.2 ⟨_, hshown, ?_⟩
      rw [hutc]
    exact hlocal

/-- The text of a format at the first instant of 1970 matches its sub-pattern. -/
theorem accepts_textAtEpoch (text : String) (items : List Item) :
  (strftime text items).Accepts (Item.textAtEpoch items)
  := by
  rw [Accepts, (readsGroup_items text items).matches_iff, language_sequence]
  exact Item.textAtEpoch_mem_language items

end Layout

/-- A date, and the hour of a half of the day with its minute. -/
def Item.halfClock : List Item :=
  fullDate ++ [.space [' '], .zeroed .hourOfHalf, .char ':', .zeroed .minute, .space [' ']]

/-- The items at the start of a format. -/
theorem Item.ofText?_halfClock (cs : List Char) :
  ofText? ('%' :: 'F' :: ' ' :: '%' :: 'I' :: ':' :: '%' :: 'M' :: ' ' :: '%' :: cs)
    = (ofText? ('%' :: cs)).map (halfClock ++ ·)
  := by
  have hdate : ∀ rest, specifier? ('F' :: rest) = some (fullDate, rest) := fun _ => rfl
  have hhour : ∀ rest, specifier? ('I' :: rest) = some ([zeroed .hourOfHalf], rest) := fun _ => rfl
  have hminute : ∀ rest, specifier? ('M' :: rest) = some ([zeroed .minute], rest) := fun _ => rfl
  rw [ofText?_percent (hdate _), ofText?_blank (by decide)]
  change ((ofText? ('%' :: 'I' :: _)).map _).map _ = _
  rw [ofText?_percent (hhour _), ofText?_literal (by decide)]
  change ((((ofText? ('%' :: 'M' :: _)).map _).map _).map _).map _ = _
  rw [ofText?_percent (hminute _), ofText?_blank (by decide)]
  change ((((((ofText? ('%' :: cs)).map _).map _).map _).map _).map _).map _ = _
  simp only [Option.map_map]
  rfl

/-- The format of a parameter can be read if its texts state a clock and its items are separated.
A format with an offset that states neither the seconds since 1970 nor a time of day is never read,
whatever the text and the zone, and nor is one in which digits follow the seconds since 1970, or
text follows the name of a zone. -/
theorem readable_of_parameter {parameter : Option String} {l : Layout}
    (h : Layout.ofParameter parameter = .ok l) :
  (l.hasClock → l.separated → l.Readable)
    ∧ (l.hasClock = false ∨ l.runsTogether → ∀ zone raw t, readTime zone l raw ≠ .ok t)
  := by
  constructor
  · intro hclock hseparated
    cases l with
    | commonLog =>
      refine ⟨"01/Jan/1970:00:00:00 +0000".toList, .utc, .zero, ?_, by decide +kernel⟩
      have hgroup : ReadsGroup Layout.commonLog.subPattern SubPattern.bracketedTimeBody :=
        SubPattern.readsGroup_of_mem_bodies (by decide)
      rw [Layout.Accepts, hgroup.matches_iff, SubPattern.mem_language_bracketedTimeBody]
      exact ⟨_, by decide, by simp, .inr rfl⟩
    | epoch unit =>
      refine ⟨['0'], .utc, .zero, ?_, by cases unit <;> decide +kernel⟩
      have hgroup : ReadsGroup (Layout.epoch unit).subPattern SubPattern.epochBody :=
        SubPattern.readsGroup_of_mem_bodies (by cases unit <;> decide)
      rw [Layout.Accepts, hgroup.matches_iff, ← captures?_isSome_iff]
      decide +kernel
    | strftime text items =>
      obtain ⟨hwell, hdate⟩ := Layout.items_of_ofParameter h
      exact ⟨_, .utc, .zero, Layout.accepts_textAtEpoch text items,
        Layout.readTime_textAtEpoch hwell hdate hclock hseparated⟩
  · intro hunreadable zone raw t hread
    rw [Layout.hasClock_of_readTime hread, Layout.runsTogether_of_readTime hread] at hunreadable
    obtain hclock | htogether := hunreadable
    · cases hclock
    · cases htogether

/-- With the half of the day, the format can be read. -/
theorem readable_of_parameter_halfDay :
  let l := Layout.strftime "%F %I:%M %p %z"
    (Item.halfClock ++ [.halfDay true, .space [' '], .offset .plain])
  Layout.ofParameter (some "%F %I:%M %p %z") = .ok l ∧ l.Readable
  := by
  intro l
  have htext : Item.ofText? "%F %I:%M %p %z".toList
      = some (Item.halfClock ++ [.halfDay true, .space [' '], .offset .plain]) := by
    have hhalf : Item.specifier? ['p', ' ', '%', 'z'] = some ([.halfDay true], [' ', '%', 'z']) :=
      rfl
    have hoffset : Item.specifier? ['z'] = some ([.offset .plain], []) := rfl
    rw [show "%F %I:%M %p %z".toList = '%' :: 'F' :: ' ' :: '%' :: 'I' :: ':' :: '%' :: 'M' :: ' '
      :: '%' :: ['p', ' ', '%', 'z'] by decide, Item.ofText?_halfClock,
      Item.ofText?_percent hhalf, Item.ofText?_blank (by decide)]
    change (((Item.ofText? ('%' :: ['z'])).map _).map _).map _ = _
    rw [Item.ofText?_percent hoffset, Item.ofText?_nil]
    rfl
  have hformat : Layout.ofParameter (some "%F %I:%M %p %z") = .ok l :=
    Layout.ofParameter_of_ofText? (by decide) (by decide) htext (by decide) (by decide)
  exact ⟨hformat, (readable_of_parameter hformat).1 (by decide) (by decide)⟩

/-- Without the half of the day, it is a format too, but no text of it can be read. -/
theorem unreadable_halfClock :
  let l := Layout.strftime "%F %I:%M %z" (Item.halfClock ++ [.offset .plain])
  Layout.ofParameter (some "%F %I:%M %z") = .ok l ∧ ¬l.Readable
  := by
  intro l
  have htext : Item.ofText? "%F %I:%M %z".toList = some (Item.halfClock ++ [.offset .plain]) := by
    have hoffset : Item.specifier? ['z'] = some ([.offset .plain], []) := rfl
    rw [show "%F %I:%M %z".toList = '%' :: 'F' :: ' ' :: '%' :: 'I' :: ':' :: '%' :: 'M' :: ' '
      :: '%' :: ['z'] by decide, Item.ofText?_halfClock, Item.ofText?_percent hoffset,
      Item.ofText?_nil]
    rfl
  have hformat : Layout.ofParameter (some "%F %I:%M %z") = .ok l :=
    Layout.ofParameter_of_ofText? (by decide) (by decide) htext (by decide) (by decide)
  refine ⟨hformat, ?_⟩
  rintro ⟨word, zone, t, -, hread⟩
  have hclock : l.hasClock := Layout.hasClock_of_readTime hread
  revert hclock
  decide

end LogFormat
