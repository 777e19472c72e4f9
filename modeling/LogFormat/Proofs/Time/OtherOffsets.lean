import LogFormat.Proofs.Time.Endings
import LogFormat.Proofs.Time.OffsetTexts
import LogFormat.Proofs.Time.StatedOffset

/-!
# Texts with another offset

If a time format ends with an offset from UTC, a text of it is read as the instant at which a clock
with the offset shows what the other items read (`readTime_lastOffset_iff`).  So if a text is read,
then the text with another spelling of an offset in its place is read just if this has hours and
minutes and nothing else, and as the instant at which a clock with that offset shows the same
(`readTime_other_offset`).  The other spellings that the sub-pattern lets through, the letter Z,
hours alone and offsets with seconds, are refused.
-/

namespace LogFormat

/-! ### Local clocks -/

/-- The date and the second of the day that a local clock shows make up the seconds that it
shows. -/
theorem localSeconds_eq (t : Instant) (zone : Offset) :
  86400 * (t.localDate zone).dayNumber + t.localSecond zone = t.localSeconds zone
  := by
  obtain ⟨hnumber, -, -⟩ := Date.ofDayNumber_spec (t.localSeconds zone / 86400)
  rw [Instant.localDate, hnumber, Instant.localSecond]
  omega

/-- Two clocks show the same date and the same second of the day just if they show the same
seconds. -/
theorem local_eq_iff {t t' : Instant} {zone zone' : Offset} :
  t.localDate zone = t'.localDate zone' ∧ t.localSecond zone = t'.localSecond zone'
    ↔ t.localSeconds zone = t'.localSeconds zone'
  := by
  constructor
  · rintro ⟨hdate, hsecond⟩
    rw [← localSeconds_eq, ← localSeconds_eq, hdate, hsecond]
  · intro h
    rw [Instant.localDate, Instant.localDate, Instant.localSecond, Instant.localSecond, h]
    exact ⟨rfl, rfl⟩

/-- The slots determine the instant at which a clock that is ahead by their offset shows their date
and their time of day. -/
theorem Fields.instant_eq_ok_iff {f : Fields} (hf : f.Bounded) (hepoch : f .epochSeconds = none)
    {t : Instant} :
  f.instant = .ok t ↔ ∃ o : Offset, f .offset = some o.seconds ∧ f.date = .ok (t.localDate o)
    ∧ f.time = .ok ((t.localSecond o : Int), t.nanos)
  := by
  constructor
  · exact instant_eq_ok hf hepoch
  · rintro ⟨o, hoffset, hdate, htime⟩
    obtain ⟨hvalid, -⟩ := date_eq_ok hf hdate
    obtain ⟨hvalidTime, -⟩ := time_eq_ok hf htime
    obtain ⟨shown, hcombine, hseconds, hnanos⟩ := exists_combine hvalid hvalidTime
    have hshown : f.shown o.seconds = .ok shown :=
      (shown_eq_ok hepoch _).2 ⟨_, _, hdate, htime, hcombine⟩
    have ho : Offset.ofSeconds? o.seconds = some o := by
      rw [Offset.ofSeconds?, dif_pos o.bounds]
    have hback : shown.seconds + -o.seconds = t.seconds := by
      rw [hseconds, localSeconds_eq, Instant.localSeconds]
      exact Int.add_neg_cancel_right _ _
    have ht : o.instantOf? shown = some t := by
      rw [Offset.instantOf?, Instant.later?, hback, hnanos, Instant.of?_self]
    simp only [instant, hoffset, bind, Except.bind, hshown, ho, ht]

/-! ### Offsets at the end -/

section lastOffset

variable {text : String} {items : List Item} {form : OffsetForm}

/-- Items that read no offset leave its slot empty. -/
theorem offset_of_readItems (hitems : ∀ item ∈ items, item.readsOffset = false)
    {raw rest : List Char} {f : Fields} (h : readItems items raw = .ok (f, rest)) :
  f .offset = none
  := by
  rw [Option.eq_none_iff_forall_ne_some]
  intro v hv
  obtain ⟨hslots, -⟩ :=
    readItems_eq_ok (fun hmem => Item.ne_dateTime (hitems _ hmem) rfl) h
  obtain ⟨item, cs, hitem, hwrites⟩ := (hslots _ v).1 hv
  obtain ⟨n, -, hfills⟩ := Item.mem_writes.1 hwrites
  have hstep : (Step.simple item).isOffset := (Step.mem_fills_offset.1 hfills).1
  have hreads := hitems item (mem_of_standsAt hitem)
  cases item with
  | offset | looseOffset => cases hreads
  | _ => cases hstep

/-- A format that ends with an offset reads the offset from what its other items leave. -/
theorem readFields_lastOffset_iff (hitems : ∀ item ∈ items, item.readsOffset = false)
    {raw : List Char} {f' : Fields} :
  readFields (items ++ [.offset form]) raw = .ok f'
    ↔ ∃ f rest n, readItems items raw = .ok (f, rest)
      ∧ readOffset false false (trimStart rest) = .ok (n, []) ∧ f' = f.fill .offset n
  := by
  constructor
  · intro h
    obtain ⟨f, rest, hread, hlast⟩ := readParts_concat.1 (readItems_of_readFields h)
    obtain ⟨n, hoffset, hput⟩ := Item.reading_eq_ok (f.put .offset) hlast
    rw [Fields.put_of_none (offset_of_readItems hitems hread)] at hput
    cases hput
    exact ⟨f, rest, n, hread, hoffset, rfl⟩
  · rintro ⟨f, rest, n, hread, hoffset, rfl⟩
    have hput := Fields.put_of_none (offset_of_readItems hitems hread) n
    have hlast : (Item.offset form).read f rest = .ok (f.fill .offset n, []) :=
      Step.reading_of_ok hoffset (f.put .offset) hput
    exact bind_eq_ok.2 ⟨_, readParts_concat.2 ⟨f, rest, hread, hlast⟩, rfl⟩

/-- A format that ends with an offset reads the instant at which a clock with the offset shows the
date and the time of day that the other items read. -/
theorem readTime_lastOffset_iff (hitems : ∀ item ∈ items, item.readsOffset = false)
    (hepoch : Item.someShows items .epoch = false) {raw : List Char} {zone : Offset}
    {t : Instant} :
  readTime zone (.strftime text (items ++ [.offset form])) (String.ofList raw) = .ok t
    ↔ ∃ f rest, ∃ o : Offset, readItems items raw = .ok (f, rest)
      ∧ readOffset false false (trimStart rest) = .ok (o.seconds, [])
      ∧ f.date = .ok (t.localDate o) ∧ f.time = .ok ((t.localSecond o : Int), t.nanos)
  := by
  have hoffset : Item.showOffset (items ++ [.offset form]) :=
    List.any_eq_true.2 ⟨.offset form, by simp, rfl⟩
  have hnoEpoch : Item.someShows (items ++ [.offset form]) .epoch = false := by
    rw [Item.someShows, List.any_append]
    exact Bool.or_eq_false_iff.2 ⟨hepoch, rfl⟩
  have hfields : ∀ f', readFields (items ++ [.offset form]) raw = .ok f' →
      f'.Bounded ∧ f' .epochSeconds = none := by
    intro f' h
    have hsteps := readItems_of_readFields h
    rw [readItems_eq_steps] at hsteps
    exact ⟨bounded_of_readSteps hsteps, epochSeconds_of_readSteps hnoEpoch hsteps⟩
  -- The slot of the offset is of no account for the date and the time of day.
  have hdate : ∀ (f : Fields) n, (f.fill .offset n).date = f.date := fun _ _ => rfl
  have htime : ∀ (f : Fields) n, (f.fill .offset n).time = f.time := fun _ _ => rfl
  rw [readTime, if_pos hoffset, String.toList_ofList, readWithOffset, bind_eq_ok]
  constructor
  · rintro ⟨f', hread, hinstant⟩
    obtain ⟨hf, hnone⟩ := hfields f' hread
    obtain ⟨o, hstated, hshows⟩ := (Fields.instant_eq_ok_iff hf hnone).1 hinstant
    obtain ⟨f, rest, n, hitems, hoffset, rfl⟩ := (readFields_lastOffset_iff hitems).1 hread
    obtain rfl : n = o.seconds := Option.some.inj hstated
    rw [hdate, htime] at hshows
    exact ⟨f, rest, o, hitems, hoffset, hshows⟩
  · rintro ⟨f, rest, o, hread, hoffset, hshows⟩
    have hread' : readFields (items ++ [.offset form]) raw = .ok (f.fill .offset o.seconds) :=
      (readFields_lastOffset_iff hitems).2 ⟨f, rest, o.seconds, hread, hoffset, rfl⟩
    obtain ⟨hf, hnone⟩ := hfields _ hread'
    refine ⟨_, hread', (Fields.instant_eq_ok_iff hf hnone).2 ⟨o, rfl, ?_⟩⟩
    rw [hdate, htime]
    exact hshows

end lastOffset

/-! ### Texts of offsets -/

/-- A sign that is read is the first character of the text. -/
theorem readOffsetSign_eq_ok {cs rest : List Char} {n : Int}
    (h : readOffsetSign cs = .ok (n, rest)) :
  ∃ sign ∈ ['+', '-', '\u2212'], cs = sign :: rest
  := by
  rw [readOffsetSign.eq_def] at h
  split at h <;> cases h <;> exact ⟨_, by decide, rfl⟩

/-- Hours that are read are two digits, and colons and blanks after them are passed over. -/
theorem readOffsetHours_eq_ok {cs rest : List Char} {n : Int}
    (h : readOffsetHours cs = .ok (n, rest)) :
  ∃ a b between, cs = a :: b :: (between ++ rest) ∧ (a.isDigit ∧ b.isDigit)
    ∧ ∀ c ∈ between, c = ':' ∨ isBlank c
  := by
  rw [readOffsetHours.eq_def] at h
  split_ifs at h
  split at h
  · next a b cs _ =>
    split_ifs at h with hdigits
    cases h
    let passed (c : Char) := c == ':' || isBlank c
    refine ⟨a, b, cs.takeWhile passed, ?_, Bool.and_eq_true_iff.1 hdigits, ?_⟩
    · rw [List.takeWhile_append_dropWhile]
    · intro c hc
      have hpassed : passed c := List.mem_takeWhile_imp hc
      simpa only [passed, Bool.or_eq_true, beq_iff_eq] using hpassed
  · cases h

/-- Minutes that are read are two digits. -/
theorem readOffsetMinutes_eq_ok {cs rest : List Char} {n : Int}
    (h : readOffsetMinutes cs = .ok (n, rest)) :
  ∃ a b, cs = a :: b :: rest ∧ a.isDigit ∧ b.isDigit
  := by
  rw [readOffsetMinutes.eq_def] at h
  split_ifs at h
  split at h
  · next a b cs _ =>
    dsimp only at h
    split_ifs at h with hdigits
    cases h
    exact ⟨a, b, rfl, Bool.and_eq_true_iff.1 hdigits⟩
  · cases h

/-- An offset that is read to its end is a sign, and then digits, colons and blanks. -/
theorem chars_of_readOffset {cs : List Char} {n : Int}
    (h : readOffset false false cs = .ok (n, [])) :
  ∃ sign ∈ ['+', '-', '\u2212'], ∃ rest, cs = sign :: rest
    ∧ ∀ c ∈ rest, c.isDigit ∨ c = ':' ∨ isBlank c
  := by
  have hparts : ∃ m hours rest, readOffsetSign cs = .ok (m, rest)
      ∧ ∃ rest', readOffsetHours rest = .ok (hours, rest')
        ∧ ∃ minutes, readOffsetMinutes rest' = .ok (minutes, []) := by
    rw [readOffset] at h
    · obtain ⟨⟨m, rest⟩, hsign, h⟩ := bind_eq_ok.1 h
      obtain ⟨⟨hours, rest'⟩, hhours, h⟩ := bind_eq_ok.1 h
      obtain ⟨⟨minutes, rest''⟩, hminutes, h⟩ := bind_eq_ok.1 h
      cases h
      exact ⟨m, hours, rest, hsign, rest', hhours, minutes, hminutes⟩
    · rintro _ ⟨⟩
    · rintro _ ⟨⟩
  obtain ⟨m, hours, rest, hsign, rest', hhours, minutes, hminutes⟩ := hparts
  obtain ⟨sign, hmem, rfl⟩ := readOffsetSign_eq_ok hsign
  obtain ⟨a, b, between, rfl, hdigits, hbetween⟩ := readOffsetHours_eq_ok hhours
  obtain ⟨c, d, rfl, hdigits'⟩ := readOffsetMinutes_eq_ok hminutes
  refine ⟨sign, hmem, _, rfl, ?_⟩
  simp only [List.forall_mem_cons, List.forall_mem_append]
  exact ⟨.inl hdigits.1, .inl hdigits.2, fun e he => .inr (hbetween e he), .inl hdigits'.1,
    .inl hdigits'.2, by simp⟩

namespace OffsetSpelling

/-- Nothing that an item can read goes on in a spelling, or in one with a blank before it. -/
theorem ending_text (s : OffsetSpelling) :
  Ending s.text ∧ Ending (' ' :: s.text)
  := by
  have hbreaks : ∀ c ∈ s.text.head?, breaksOff c := by
    obtain ⟨c, hc, rest, htext, -⟩ := s.exists_text_eq_cons
    have hbreaks : ∀ c ∈ ['Z', '+', '-'], breaksOff c := List.all_eq_true.1 (by decide)
    rw [htext]
    rintro _ ⟨⟩
    exact hbreaks c hc
  have htrim : trimStart s.text = s.text := trimStart_of_head s.not_isBlank_text
  have htrim' : trimStart (' ' :: s.text) = s.text :=
    (List.dropWhile_cons_of_pos (by decide)).trans htrim
  refine ⟨⟨hbreaks, by rwa [htrim]⟩, ⟨?_, by rwa [htrim']⟩⟩
  rintro _ ⟨⟩
  decide

/-- Where a text that ends with a spelling is read as an offset to its end, it is this spelling that
is read, and blanks before it. -/
theorem blanks_of_readOffset {s : OffsetSpelling} {x rest : List Char} {n : Int}
    (hsuffix : rest <:+ x ++ s.text)
    (h : readOffset false false (trimStart rest) = .ok (n, [])) :
  ∃ blanks, rest = blanks ++ s.text ∧ (∀ c ∈ blanks, isBlank c)
    ∧ readOffset false false s.text = .ok (n, [])
  := by
  obtain ⟨sign, hsign, cs, hcs, hchars⟩ := chars_of_readOffset h
  obtain ⟨c, hc, ds, htext, hds⟩ := s.exists_text_eq_cons
  -- A sign is not among the other characters of an offset.
  have hapart : ∀ d ∈ ['Z', '+', '-', '\u2212'], ¬(d.isDigit ∨ d = ':' ∨ isBlank d) := by
    intro d hd
    simp only [List.mem_cons, List.not_mem_nil, or_false] at hd
    rcases hd with rfl | rfl | rfl | rfl <;> decide
  obtain hshort | ⟨blanks, rfl⟩ :=
    List.suffix_or_suffix_of_suffix hsuffix (List.suffix_append x s.text)
  · rw [htext, List.suffix_cons_iff] at hshort
    obtain rfl | hshort := hshort
    · rw [← htext] at h ⊢
      rw [trimStart_of_head s.not_isBlank_text] at h
      exact ⟨[], rfl, by simp, h⟩
    · have hmem : sign ∈ rest :=
        (List.dropWhile_suffix _).subset (hcs ▸ List.mem_cons_self)
      exact absurd ((hds sign (hshort.subset hmem)).imp_right .inl)
        (hapart sign (List.mem_cons_of_mem _ hsign))
  · by_cases hblanks : ∀ c ∈ blanks, isBlank c
    · rw [trimStart_append_of_blank hblanks, trimStart_of_head s.not_isBlank_text] at h
      exact ⟨blanks, rfl, hblanks, h⟩
    · rw [trimStart_append hblanks] at hcs
      obtain ⟨d, blanks', hd⟩ : ∃ d blanks', trimStart blanks = d :: blanks' := by
        apply List.exists_cons_of_ne_nil
        rwa [trimStart, ne_eq, List.dropWhile_eq_nil_iff]
      rw [hd, List.cons_append] at hcs
      obtain ⟨-, hcs⟩ := List.cons.inj hcs
      have hmem : c ∈ cs := by
        rw [← hcs, htext]
        exact List.mem_append_right _ List.mem_cons_self
      exact absurd (hchars c hmem) (hapart c (List.mem_append_left ['\u2212'] hc))

end OffsetSpelling

/-! ### Another spelling -/

/-- A format that ends with an offset, and states neither another one nor the seconds since 1970,
reads a text with a spelling of an offset at its end.  Every other spelling with hours below 24, and
minutes and seconds below 60, matches the sub-pattern of the offset too.  But it is read in the
place of the first one just if it has hours and minutes and nothing else, and then as the instant at
which a clock with its offset shows the same date and time of day. -/
theorem readTime_other_offset {text : String} {items : List Item} {form : OffsetForm}
    (hitems : ∀ item ∈ items, item.readsOffset = false)
    (hepoch : Item.someShows items .epoch = false) {x : List Char} {s s' : OffsetSpelling}
    (hs : s.TwoDigits) (hs' : s'.InBounds) {zone : Offset} {t : Instant}
    (h : readTime zone (.strftime text (items ++ [.offset form])) (String.ofList (x ++ s.text))
      = .ok t) :
  s'.text ∈ (Pattern.chain (Item.offset form).patterns).language
    ∧ ∀ (zone' : Offset) (t' : Instant),
        readTime zone' (.strftime text (items ++ [.offset form])) (String.ofList (x ++ s'.text))
            = .ok t'
          ↔ s'.isPlain ∧ t'.seconds + s'.value = t.seconds + s.value ∧ t'.nanos = t.nanos
  := by
  refine ⟨OffsetSpelling.mem_language_iff.2 ⟨s', hs'.twoDigits, rfl⟩, fun zone' t' => ?_⟩
  obtain ⟨f, rest, o, hread, hoffset, hdate, htime⟩ :=
    (readTime_lastOffset_iff hitems hepoch).1 h
  obtain ⟨blanks, rfl, hblanks, hspelling⟩ :=
    OffsetSpelling.blanks_of_readOffset (Item.suffix_of_foldlM hitems hread) hoffset
  obtain ⟨-, hvalue⟩ := OffsetSpelling.plain_of_readOffset hs hspelling
  -- The other items read the text alike, and leave the other spelling.
  obtain ⟨rest', hread', hrest'⟩ := readItems_ending hitems s.ending_text.1 s.not_isBlank_text
    (fun _ => s.text_ne_nil) s'.ending_text.1 hread
  have htrim : trimStart rest' = s'.text := by
    have htext : trimStart s'.text = s'.text := trimStart_of_head s'.not_isBlank_text
    obtain rfl | ⟨-, rfl⟩ := hrest'
    · rw [trimStart_append_of_blank hblanks, htext]
    · rw [htext, htext]
  rw [readTime_lastOffset_iff hitems hepoch]
  constructor
  · rintro ⟨f', rest'', o', hread'', hoffset', hdate', htime'⟩
    cases hread'.symm.trans hread''
    rw [htrim] at hoffset'
    obtain ⟨hplain, hvalue'⟩ := OffsetSpelling.plain_of_readOffset hs'.twoDigits hoffset'
    have hsameDate := Except.ok.inj (hdate.symm.trans hdate')
    obtain ⟨hsameSecond, hnanos⟩ := Prod.mk.inj (Except.ok.inj (htime.symm.trans htime'))
    have hlocal := local_eq_iff.1 ⟨hsameDate, Int.ofNat_inj.1 hsameSecond⟩
    rw [Instant.localSeconds, Instant.localSeconds, hvalue, hvalue'] at hlocal
    exact ⟨hplain, hlocal.symm, hnanos.symm⟩
  · rintro ⟨hplain, hseconds, hnanos⟩
    let o' : Offset := ⟨s'.value, hs'.value_bounds⟩
    have hlocal : t.localSeconds o = t'.localSeconds o' := by
      rw [Instant.localSeconds, Instant.localSeconds, hvalue]
      exact hseconds.symm
    obtain ⟨hsameDate, hsameSecond⟩ := local_eq_iff.2 hlocal
    refine ⟨f, rest', o', hread', ?_, ?_, ?_⟩
    · rw [htrim]
      exact OffsetSpelling.readOffset_of_plain hs' hplain
    · rw [hdate, hsameDate]
    · rw [htime, hsameSecond, hnanos]

/-- The items of a date and a time of day before an offset. -/
def Item.stamp : List Item :=
  fullDate ++ .space [' '] :: clockTime

/-- A time of day on the first of March, without an offset and then an hour and a half ahead of
UTC. -/
theorem readTime_other_offset_ahead :
  let l := Layout.strftime "%F %T%z" (Item.stamp ++ [.offset .plain])
  let s := OffsetSpelling.minutes false 0 false 0
  let s' := OffsetSpelling.minutes false 1 true 30
  (∀ item ∈ Item.stamp, item.readsOffset = false) ∧ Item.someShows Item.stamp .epoch = false
    ∧ s.TwoDigits ∧ s'.InBounds
    ∧ readTime .utc l (String.ofList ("2024-03-01 13:00:00".toList ++ s.text))
      = .ok ⟨1709298000, 0, by decide⟩
    ∧ readTime .utc l "2024-03-01 13:00:00+01:30" = .ok ⟨1709292600, 0, by decide⟩
  := by
  intro l s s'
  have hitems : ∀ item ∈ Item.stamp, item.readsOffset = false := by decide
  have hepoch : Item.someShows Item.stamp .epoch = false := by decide
  have hs : s.TwoDigits := ⟨by decide, by decide⟩
  have hs' : s'.InBounds := ⟨by decide, by decide⟩
  have hread : readTime .utc l (String.ofList ("2024-03-01 13:00:00".toList ++ s.text))
      = .ok ⟨1709298000, 0, by decide⟩ := by
    decide +kernel
  obtain ⟨-, hother⟩ := readTime_other_offset hitems hepoch hs hs' hread
  have hahead : String.ofList ("2024-03-01 13:00:00".toList ++ s'.text)
      = "2024-03-01 13:00:00+01:30" := by
    decide +kernel
  rw [hahead] at hother
  exact ⟨hitems, hepoch, hs, hs', hread,
    (hother .utc ⟨1709292600, 0, by decide⟩).2 ⟨rfl, by decide, rfl⟩⟩

/-- The letter Z matches the sub-pattern of the offset, but is refused in its place. -/
theorem readTime_refuses_zulu :
  let items := Item.stamp ++ [.offset .plain]
  Layout.ofParameter (some "%F %T%z") = .ok (.strftime "%F %T%z" items)
    ∧ readTime .utc (.strftime "%F %T%z" items) "2024-03-01 13:00:00+0000"
      = .ok ⟨1709298000, 0, by decide⟩
    ∧ "Z".toList ∈ (Pattern.chain (Item.offset .plain).patterns).language
    ∧ readTime .utc (.strftime "%F %T%z" items) "2024-03-01 13:00:00Z" = .error .invalid
  := by
  intro items
  have htext : Item.ofText? "%F %T%z".toList = some items := by
    have hdate : Item.specifier? "F %T%z".toList = some (Item.fullDate, " %T%z".toList) := by
      decide +kernel
    have htime : Item.specifier? "T%z".toList = some (Item.clockTime, "%z".toList) := by
      decide +kernel
    have hoffset : Item.specifier? "z".toList = some ([.offset .plain], []) := by decide +kernel
    change Item.ofText? ('%' :: "F %T%z".toList) = _
    rw [Item.ofText?_percent hdate]
    change (Item.ofText? (' ' :: "%T%z".toList)).map _ = _
    rw [Item.ofText?_blank (by decide)]
    change ((Item.ofText? ('%' :: "T%z".toList)).map _).map _ = _
    rw [Item.ofText?_percent htime]
    change (((Item.ofText? ('%' :: "z".toList)).map _).map _).map _ = _
    rw [Item.ofText?_percent hoffset, Item.ofText?_nil]
    rfl
  have hformat : Layout.ofParameter (some "%F %T%z") = .ok (.strftime "%F %T%z" items) :=
    Layout.ofParameter_of_ofText? (by decide) (by decide) htext (by decide) (by decide)
  exact ⟨hformat, by decide +kernel, OffsetSpelling.mem_language_iff.2 ⟨.zulu, trivial, rfl⟩,
    by decide +kernel⟩

end LogFormat
