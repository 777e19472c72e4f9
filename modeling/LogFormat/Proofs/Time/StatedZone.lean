import LogFormat.Proofs.Time.OtherOffsets
import LogFormat.Proofs.Time.Readable
import LogFormat.Proofs.Time.ZoneNames

/-!
# A zone that is stated

A text without an offset is read in a zone.  If its format always states an hour, a minute and a
second, the format with a blank and an offset after it is one too, and reads the text with a blank
and the offset of the zone after it as the same instant, in whatever zone
(`readTime_stated_zone`).
-/

namespace LogFormat

/-! ### Formats with an offset after them -/

namespace Item

/-- A specifier of one character is one whatever follows it. -/
theorem specifier?_of_ofSpecifier? {c : Char} {items : List Item}
    (h : ofSpecifier? c = some items) (rest : List Char) :
  specifier? (c :: rest) = some (items, rest)
  := by
  unfold specifier?
  split
  case h_15 heq =>
    cases heq
    rw [h]
    rfl
  all_goals
    next heq =>
      cases heq
      try cases h

/-- A specifier is the same whatever follows it. -/
theorem specifier?_append {cs rest : List Char} {items : List Item}
    (h : specifier? cs = some (items, rest)) (more : List Char) :
  specifier? (cs ++ more) = some (items, rest ++ more)
  := by
  have hpad : ∀ {pad : Pad} {c : Char} {rest' : List Char},
      (withPad? pad c).map (·, rest') = some (items, rest) →
        (withPad? pad c).map (·, rest' ++ more) = some (items, rest ++ more) := by
    intro pad c rest' h
    obtain ⟨items', hitems, heq⟩ := Option.map_eq_some_iff.1 h
    cases heq
    rw [hitems]
    rfl
  -- Three specifiers name their own padding, and the last but one is a single character.
  unfold specifier? at h
  split at h
  case h_2 | h_3 | h_4 => exact hpad h
  case h_15 =>
    obtain ⟨items', hitems, h⟩ := Option.map_eq_some_iff.1 h
    cases h
    exact specifier?_of_ofSpecifier? hitems _
  case h_16 => cases h
  all_goals
    cases h
    rfl

/-- The items of a format and those of the format with a blank after it, which belongs to the white
space at its end if there is any. -/
def BlankAfter (items last : List Item) : Prop :=
  last = items ++ [space [' ']]
    ∨ ∃ before text, items = before ++ [space text] ∧ last = before ++ [space (text ++ [' '])]

theorem BlankAfter.append {items last : List Item} (h : BlankAfter items last)
    (before : List Item) :
  BlankAfter (before ++ items) (before ++ last)
  := by
  obtain rfl | ⟨before', text, rfl, rfl⟩ := h
  · exact .inl (List.append_assoc _ _ _).symm
  · exact .inr ⟨before ++ before', text, (List.append_assoc _ _ _).symm,
      (List.append_assoc _ _ _).symm⟩

/-- Of the items with a blank after them, all are items without it or white space. -/
theorem BlankAfter.mem {items last : List Item} (h : BlankAfter items last) {item : Item}
    (hitem : item ∈ last) :
  item ∈ items ∨ ∃ text, item = space text
  := by
  obtain rfl | ⟨before, text, rfl, rfl⟩ := h
  · exact (List.mem_append.1 hitem).imp_right fun h => ⟨_, List.mem_singleton.1 h⟩
  · obtain h | h := List.mem_append.1 hitem
    · exact .inl (List.mem_append_left _ h)
    · exact .inr ⟨_, List.mem_singleton.1 h⟩

/-- A blank after items shows nothing. -/
theorem BlankAfter.someShows_eq {items last : List Item} (h : BlankAfter items last)
    (part : Part) :
  someShows last part = someShows items part
  := by
  obtain rfl | ⟨before, text, rfl, rfl⟩ := h
  · simp [someShows, parts]
  · simp [someShows, parts]

/-- A text with a blank and an offset after it is divided into its items, a blank and the offset. -/
theorem ofText?_offset {cs : List Char} {items : List Item} (h : ofText? cs = some items) :
  ∃ last, BlankAfter items last
    ∧ ofText? (cs ++ [' ', '%', 'z']) = some (last ++ [offset .plain])
  := by
  have hoffset : ofText? ['%', 'z'] = some [offset .plain] := by
    rw [ofText?_percent (specifier?_of_ofSpecifier? rfl []), ofText?_nil]
    rfl
  fun_induction ofText? cs generalizing items with
  | case1 =>
    cases h
    refine ⟨[space [' ']], .inl rfl, ?_⟩
    rw [List.nil_append, ofText?_blank (by decide)]
    change (ofText? ['%', 'z']).map _ = _
    rw [hoffset]
    rfl
  | case2 ds hread => cases h
  | case3 ds items' rest hread ih =>
    obtain ⟨others, hothers, rfl⟩ := Option.map_eq_some_iff.1 h
    obtain ⟨last, hlast, htext⟩ := ih hothers
    refine ⟨items' ++ last, hlast.append items', ?_⟩
    rw [List.cons_append, ofText?_percent (specifier?_append hread _), htext, Option.map_some,
      List.append_assoc]
  | case4 c ds hpercent hblank ih =>
    obtain ⟨others, hothers, rfl⟩ := Option.map_eq_some_iff.1 h
    rw [List.cons_append, ofText?_blank hblank]
    by_cases hds : ∀ d ∈ ds, isBlank d
    · -- The blank goes on the white space at the end.
      have hnil : ds.dropWhile isBlank = [] := List.dropWhile_eq_nil_iff.2 hds
      rw [hnil, ofText?_nil] at hothers
      cases hothers
      refine ⟨[space (c :: ds ++ [' '])], .inr ⟨[], _, rfl, ?_⟩, ?_⟩
      · rw [List.takeWhile_eq_self_iff.2 hds]
        rfl
      · rw [List.dropWhile_append_of_pos hds, List.takeWhile_append_of_pos hds]
        change (ofText? ['%', 'z']).map _ = _
        rw [hoffset]
        rfl
    · obtain ⟨last, hlast, htext⟩ := ih hothers
      have hrest : ¬(ds.dropWhile isBlank).isEmpty := by
        rwa [List.isEmpty_iff, List.dropWhile_eq_nil_iff]
      have hblanks : (ds.takeWhile isBlank).length ≠ ds.length := by
        intro hlength
        apply hds
        rw [← List.takeWhile_eq_self_iff]
        exact (List.takeWhile_prefix _).eq_of_length hlength
      refine ⟨_, hlast.append [_], ?_⟩
      rw [List.dropWhile_append, if_neg hrest, List.takeWhile_append, if_neg hblanks, htext]
      rfl
  | case5 c ds hpercent hnonblank ih =>
    obtain ⟨others, hothers, rfl⟩ := Option.map_eq_some_iff.1 h
    obtain ⟨last, hlast, htext⟩ := ih hothers
    have hblank : ∀ c ∈ [' ', '%', 'z'].head?, ¬isLiteral c := by
      rintro _ ⟨⟩
      decide
    have hends := takeWhile_append_ending hblank ds
    have hliteral : isLiteral c := by
      have hc : c ≠ '%' := hpercent
      simp [isLiteral, hc, hnonblank]
    refine ⟨_, hlast.append [_], ?_⟩
    rw [List.cons_append, ofText?_literal hliteral, hends.1, hends.2, htext]
    rfl

end Item

namespace Layout

/-- A word without a blank is at the start of a text with a blank after it just if it is at the
start of the text. -/
theorem isPrefixOf_append_blank {word : List Char} (hword : ' ' ∉ word) (cs more : List Char) :
  word.isPrefixOf (cs ++ ' ' :: more) = word.isPrefixOf cs
  := by
  rw [Bool.eq_iff_iff, List.isPrefixOf_iff_prefix, List.isPrefixOf_iff_prefix]
  constructor
  · intro h
    obtain h' | ⟨rest, rfl⟩ := List.prefix_or_prefix_of_prefix h (List.prefix_append cs (' ' :: more))
    · exact h'
    · cases rest with
      | nil => rw [List.append_nil]
      | cons c rest =>
        obtain ⟨rfl, -⟩ := List.cons_prefix_cons.1 ((List.prefix_append_right_inj cs).1 h)
        simp at hword
  · intro h
    exact h.trans (List.prefix_append _ _)

/-- The word for the end of a request that is meant is removed alike from a parameter with a blank
after it. -/
theorem withoutMoment_append (cs more : List Char) :
  withoutMoment (cs ++ ' ' :: more) = withoutMoment cs ++ ' ' :: more
  := by
  have hdrop : ∀ word : List Char, word.isPrefixOf cs →
      (cs ++ ' ' :: more).drop word.length = cs.drop word.length ++ ' ' :: more := by
    intro word hword
    exact List.drop_append_of_le_length (List.isPrefixOf_iff_prefix.1 hword).length_le
  simp only [withoutMoment]
  rw [isPrefixOf_append_blank (by decide), isPrefixOf_append_blank (by decide)]
  split_ifs with hbegin hend
  · exact hdrop _ hbegin
  · exact hdrop _ hend
  · rfl

/-- A time format with an hour and a minute is one with a blank and an offset after it too. -/
theorem ofParameter_offset {parameter text : String} {items : List Item}
    (h : ofParameter (some parameter) = .ok (.strftime text items))
    (htime : Item.showTime items) :
  ∃ last, Item.BlankAfter items last ∧ ofParameter (some (parameter ++ " %z"))
    = .ok (.strftime (text ++ " %z") (last ++ [.offset .plain]))
  := by
  obtain ⟨rfl, htext, hdate⟩ := ofText?_of_ofParameter h
  obtain ⟨last, hlast, htext'⟩ := Item.ofText?_offset htext
  have hmoment : withoutMoment (parameter ++ " %z").toList
      = withoutMoment parameter.toList ++ [' ', '%', 'z'] := by
    rw [String.toList_append]
    exact withoutMoment_append _ _
  have hshows : ∀ part, Item.someShows items part →
      Item.someShows (last ++ [.offset .plain]) part := by
    intro part hpart
    rw [Item.someShows, List.any_append, ← Item.someShows, hlast.someShows_eq, hpart,
      Bool.true_or]
  have hdate' : Item.showDate (last ++ [.offset .plain]) := by
    simp only [Item.showDate, Bool.or_eq_true, Bool.and_eq_true] at hdate ⊢
    exact hdate.imp (Or.imp (hshows _) (hshows _))
      (And.imp (hshows _) (Or.imp (hshows _) (And.imp (hshows _) (hshows _))))
  have htime' : Item.showTime (last ++ [.offset .plain]) := by
    simp only [Item.showTime, Bool.or_eq_true, Bool.and_eq_true] at htime ⊢
    exact htime.imp (Or.imp (hshows _) (hshows _)) (And.imp (hshows _) (hshows _))
  have hwords : ∀ word : List Char, ' ' ∉ word →
      withoutMoment parameter.toList ++ [' ', '%', 'z'] ≠ word := by
    rintro word hword rfl
    simp at hword
  refine ⟨last, hlast, ?_⟩
  simp only [ofParameter, hmoment]
  rw [if_neg (hwords _ (by decide)), if_neg (hwords _ (by decide)), if_neg (hwords _ (by decide)),
    if_neg (not_or.2 ⟨hwords _ (by decide), hwords _ (by decide)⟩), if_neg (hwords _ (by decide)),
    ofFormat, htext']
  simp [hdate', htime', String.ofList_append]

end Layout

/-! ### Texts with an offset after them -/

namespace Item

section reading

variable {items : List Item} {raw rest : List Char} {f : Fields}

/-- Items that always state a time of day show an hour and a minute. -/
theorem showTime_of_showClock (h : showClock items) :
  showTime items
  := by
  have hshows : ∀ {c : Component} {part : Part}, alwaysState items c →
      (∀ item : Item, item.component? = some c → item.parts.contains part) →
        someShows items part ∨ someShows items .complete := by
    intro c part hc hpart
    obtain ⟨step, hstep, -, hcomponent⟩ := alwaysState_iff.1 hc
    obtain ⟨item, hitem, hstep⟩ := List.mem_flatMap.1 hstep
    by_cases hdateTime : item = dateTime
    · subst hdateTime
      exact .inr (List.any_eq_true.2 ⟨_, hitem, rfl⟩)
    · rw [steps_of_ne hdateTime] at hstep
      obtain rfl := List.mem_singleton.1 hstep
      exact .inl (List.any_eq_true.2 ⟨item, hitem, hpart item hcomponent⟩)
  have hnumber : ∀ {item : Item},
      (item.component? = some .hour ∨ item.component? = some .hourOfHalf →
        item.parts.contains .hour)
      ∧ (item.component? = some .minute → item.parts.contains .minute) := by
    intro item
    cases item with
    | number q pad => cases q <;> simp [component?, parts]
    | _ => simp [component?]
  obtain ⟨hhour, hminute, -⟩ := showClock_iff.1 h
  have hhour : someShows items .hour ∨ someShows items .complete := by
    obtain hhour | ⟨-, hhour⟩ := hhour
    · exact hshows hhour fun _ hitem => hnumber.1 (.inl hitem)
    · exact hshows hhour fun _ hitem => hnumber.1 (.inr hitem)
  have hminute : someShows items .minute ∨ someShows items .complete :=
    hshows hminute fun _ => hnumber.2
  simp only [showTime, Bool.or_eq_true, Bool.and_eq_true]
  tauto

/-- The slots of a text determine a time of day, if every text states one with a second. -/
theorem exists_time_of_alwaysState
    (h : readParts Step.read (items.flatMap steps) raw = .ok (f, rest))
    (hclock : showClock items) (hsecond : alwaysState items .second) :
  ∃ time, f.time = .ok time
  := by
  have hfilled : ∀ {c : Component} {slot : Slot}, alwaysState items c → c ∈ slot.components →
      ∃ v, f slot = some v := by
    intro c slot hc hslot
    obtain ⟨n, hslots⟩ := filled_of_alwaysState h hc
    obtain ⟨v, hv⟩ := c.exists_mem_slots hslot n
    exact ⟨v, hslots slot v hv⟩
  obtain ⟨hhour, hminute, -⟩ := showClock_iff.1 hclock
  rw [Fields.exists_time_iff]
  refine ⟨?_, hfilled hminute (by decide), fun _ => hfilled hsecond (by decide)⟩
  obtain hhour | ⟨hhalf, hhour⟩ := hhour
  · exact ⟨hfilled hhour (by decide), hfilled hhour (by decide)⟩
  · exact ⟨hfilled hhalf (by decide), hfilled hhour (by decide)⟩

end reading

/-- If items read a text to its end, then with a blank after them they read it with a blank and an
offset after it up to the offset. -/
theorem BlankAfter.readItems {items last : List Item} (h : BlankAfter items last)
    (hitems : ∀ item ∈ items, item.readsOffset = false) (hzone : .zoneName ∉ items)
    {raw : List Char} {f : Fields} (hread : readItems items raw = .ok (f, []))
    (s : OffsetSpelling) :
  ∃ rest, LogFormat.readItems last (raw ++ ' ' :: s.text) = .ok (f, rest) ∧ trimStart rest = s.text
  := by
  have hnil : Ending [] := ⟨by rintro c ⟨⟩, by rintro c ⟨⟩⟩
  have htext : trimStart s.text = s.text := trimStart_of_head s.not_isBlank_text
  have hblank : trimStart (' ' :: s.text) = s.text :=
    (List.dropWhile_cons_of_pos (by decide)).trans htext
  have hread : LogFormat.readItems items (raw ++ []) = .ok (f, [] ++ []) := by
    rwa [List.append_nil]
  obtain ⟨rest, hread', hrest⟩ := readItems_ending hitems hnil (by rintro c ⟨⟩)
    (fun hmem => absurd hmem hzone) s.ending_text.2 hread
  have htrim : trimStart rest = s.text := by
    obtain rfl | ⟨-, rfl⟩ := hrest
    · exact hblank
    · rw [hblank, htext]
  obtain rfl | ⟨before, text, rfl, rfl⟩ := h
  · exact ⟨_, readParts_concat.2 ⟨f, rest, hread', rfl⟩, by rw [htrim, htext]⟩
  · -- White space is read alike, however much of it there is in the format.
    obtain ⟨f', rest', hbefore, hspace⟩ := readParts_concat.1 hread'
    exact ⟨rest, readParts_concat.2 ⟨f', rest', hbefore, hspace⟩, htrim⟩

end Item

/-! ### The stated zone -/

/-- Items that read no offset show none. -/
theorem Item.showOffset_of_readsOffset {items : List Item}
    (hitems : ∀ item ∈ items, item.readsOffset = false) :
  showOffset items = false
  := by
  rw [showOffset, someShows, List.any_eq_false]
  intro item hitem hshows
  have hreads := hitems item hitem
  cases item with
  | offset | dateTime => cases hreads
  | number q pad => cases q <;> cases hshows
  | _ => cases hshows

/-- If every text states a time of day with a second, a text without an offset is read as the
instant at which the local clock shows the date and the time of day of its slots. -/
theorem fields_of_readTime {text : String} {items : List Item}
    (hitems : ∀ item ∈ items, item.readsOffset = false)
    (hepoch : Item.someShows items .epoch = false) (hclock : Item.showClock items)
    (hsecond : Item.alwaysState items .second) {zone : Offset} {raw : String} {t : Instant}
    (h : readTime zone (.strftime text items) raw = .ok t) :
  ∃ f, readItems items raw.toList = .ok (f, []) ∧ f.date = .ok (t.localDate zone)
    ∧ f.time = .ok ((t.localSecond zone : Int), t.nanos)
  := by
  rw [readTime, if_neg (by simp [Item.showOffset_of_readsOffset hitems])] at h
  obtain ⟨f, hfields⟩ : ∃ f, readFields items raw.toList = .ok f := by
    obtain ⟨shown, hshown, -⟩ := bind_eq_ok.1 h
    obtain ⟨f, hfields, -⟩ := bind_eq_ok.1 hshown
    exact ⟨f, hfields⟩
  have hread := readItems_of_readFields hfields
  have hsteps := hread
  rw [readItems_eq_steps] at hsteps
  obtain ⟨d, time, hdate, htime, rfl, hlocal, hnanos⟩ := readLocal_eq_ok
    (bounded_of_readSteps hsteps) hfields (epochSeconds_of_readSteps hepoch hsteps) h
  refine ⟨f, hread, hdate, ?_⟩
  obtain htime | ⟨hnone, -⟩ := htime
  · rw [htime, hlocal, hnanos]
  · exact absurd (Item.exists_time_of_alwaysState hsteps hclock hsecond) hnone

/-- If the items of a format read no offset, no name of a zone and no seconds since 1970, and always
state an hour, a minute and a second, then the format with a blank and an offset after it is one
too.  And whatever the format reads in a zone of hours and minutes, this one reads as the same
instant, in every zone, if a blank and the offset are put after it. -/
theorem readTime_stated_zone {parameter text : String} {items : List Item}
    (hformat : Layout.ofParameter (some parameter) = .ok (.strftime text items))
    (hitems : ∀ item ∈ items, item.readsOffset = false) (hname : .zoneName ∉ items)
    (hepoch : Item.someShows items .epoch = false) (hclock : Item.showClock items)
    (hsecond : Item.alwaysState items .second) {h m : Nat} (hh : h < 24) (hm : m < 60)
    (behind colon : Bool) :
  let offset := String.ofList (OffsetSpelling.minutes behind h colon m).text
  ∃ zone l, Offset.ofText offset = .ok zone
    ∧ Layout.ofParameter (some (parameter ++ " %z")) = .ok l
    ∧ ∀ raw t, readTime zone (.strftime text items) raw = .ok t →
        ∀ zone', readTime zone' l (raw ++ " " ++ offset) = .ok t
  := by
  let s := OffsetSpelling.minutes behind h colon m
  obtain ⟨zone, hzone, hseconds⟩ := Offset.ofText_minutes hh hm behind colon
  obtain ⟨last, hlast, hformat'⟩ :=
    Layout.ofParameter_offset hformat (Item.showTime_of_showClock hclock)
  refine ⟨zone, _, hzone, hformat', fun raw t h zone' => ?_⟩
  have hlastItems : ∀ item ∈ last, item.readsOffset = false := by
    intro item hitem
    obtain hitem | ⟨text, rfl⟩ := hlast.mem hitem
    · exact hitems item hitem
    · rfl
  obtain ⟨f, hread, hdate, htime⟩ := fields_of_readTime hitems hepoch hclock hsecond h
  obtain ⟨rest, hrest, htrim⟩ := hlast.readItems hitems hname hread s
  have htext : raw ++ " " ++ String.ofList s.text = String.ofList (raw.toList ++ ' ' :: s.text) := by
    rw [← String.toList_inj]
    simp
  have hoffset : readOffset false false s.text = .ok (s.value, []) :=
    OffsetSpelling.readOffset_of_plain ⟨hh, hm⟩ rfl
  rw [htext, readTime_lastOffset_iff hlastItems ((hlast.someShows_eq _).trans hepoch)]
  refine ⟨f, rest, zone, hrest, ?_, hdate, htime⟩
  rw [htrim, hoffset, hseconds]

/-- A date and a time of day are a time format. -/
theorem ofParameter_stamp :
  Layout.ofParameter (some "%F %T") = .ok (.strftime "%F %T" Item.stamp)
  := by
  have htext : Item.ofText? "%F %T".toList = some Item.stamp := by
    have hdate : Item.specifier? "F %T".toList = some (Item.fullDate, " %T".toList) := by
      decide +kernel
    have htime : Item.specifier? "T".toList = some (Item.clockTime, []) := by decide +kernel
    change Item.ofText? ('%' :: "F %T".toList) = _
    rw [Item.ofText?_percent hdate]
    change (Item.ofText? (' ' :: "%T".toList)).map _ = _
    rw [Item.ofText?_blank (by decide)]
    change ((Item.ofText? ('%' :: "T".toList)).map _).map _ = _
    rw [Item.ofText?_percent htime, Item.ofText?_nil]
    rfl
  exact Layout.ofParameter_of_ofText? (by decide) (by decide) htext (by decide) (by decide)

/-- The leap second at the end of 2016, in a zone nine hours ahead of UTC. -/
theorem readTime_stated_zone_leap :
  let t : Instant := ⟨1483228799, 1000000000, by decide⟩
  Layout.ofParameter (some "%F %T") = .ok (.strftime "%F %T" Item.stamp)
    ∧ (∀ item ∈ Item.stamp, item.readsOffset = false) ∧ .zoneName ∉ Item.stamp
    ∧ Item.someShows Item.stamp .epoch = false ∧ Item.showClock Item.stamp
    ∧ Item.alwaysState Item.stamp .second
    ∧ ∃ zone l, Offset.ofText "+09:00" = .ok zone
      ∧ Layout.ofParameter (some "%F %T %z") = .ok l
      ∧ readTime zone (.strftime "%F %T" Item.stamp) "2017-01-01 08:59:60" = .ok t
      ∧ ∀ zone', readTime zone' l "2017-01-01 08:59:60 +09:00" = .ok t
  := by
  intro t
  have hitems : ∀ item ∈ Item.stamp, item.readsOffset = false := by decide
  have hname : .zoneName ∉ Item.stamp := by decide
  have hepoch : Item.someShows Item.stamp .epoch = false := by decide
  have hclock : Item.showClock Item.stamp := by decide
  have hsecond : Item.alwaysState Item.stamp .second := by decide
  have htext : String.ofList (OffsetSpelling.minutes false 9 true 0).text = "+09:00" := by
    decide +kernel
  have hparameter : "%F %T" ++ " %z" = "%F %T %z" := by decide +kernel
  have hraw : "2017-01-01 08:59:60" ++ " " ++ "+09:00" = "2017-01-01 08:59:60 +09:00" := by
    decide +kernel
  have hnine : Offset.ofText "+09:00" = .ok ⟨32400, by decide⟩ := by decide +kernel
  obtain ⟨zone, l, hzone, hformat, hread⟩ := readTime_stated_zone ofParameter_stamp hitems hname
    hepoch hclock hsecond (by decide : 9 < 24) (by decide : 0 < 60) false true
  rw [htext] at hzone hread
  rw [hparameter] at hformat
  cases hnine.symm.trans hzone
  have hlocal : readTime ⟨32400, by decide⟩ (.strftime "%F %T" Item.stamp) "2017-01-01 08:59:60"
      = .ok t := by
    decide +kernel
  refine ⟨ofParameter_stamp, hitems, hname, hepoch, hclock, hsecond, _, l, hzone, hformat, hlocal,
    fun zone' => ?_⟩
  rw [← hraw]
  exact hread _ t hlocal zone'

end LogFormat
