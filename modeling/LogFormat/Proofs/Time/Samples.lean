import LogFormat.Proofs.Time.FirstInstant
import Mathlib.Data.List.DropRight

/-!
# The text of a format at the first instant of 1970

Each item of a time format has a text for 1970-01-01T00:00:00Z, and is read back from it
(`Step.read_sample`) if what follows does not begin with what would still belong to the item: a
further digit after the seconds since 1970, a character that is not blank after the name of a
zone, or a point after a part of a second, which is left out.  So the whole text of a format whose
items are separated in this way is read, and it fills the slots of all items but those
(`readFields_sample`).
-/

namespace LogFormat

/-! ### Texts -/

/-- The number at the first instant of 1970. -/
def Quantity.atEpoch : Quantity → Nat
  | year | weekYear => 1970
  | century => 19
  | yearOfCentury | weekYearOfCentury => 70
  | quarter | month | day | week | ordinal => 1
  | weekdayFromSunday | weekdayFromMonday => 4
  | hourOfHalf => 12
  | _ => 0

namespace Item

/-- The text of an item that is no composite at the first instant of 1970.  A number has a blank
before it, and a part of a second with a point is left out. -/
def sample : Item → List Char
  | literal text => text
  | space text => text
  | number q _ => ' ' :: padded (q.width.getD 1) q.atEpoch
  | monthName .short => ['J', 'a', 'n']
  | monthName .long => ['J', 'a', 'n', 'u', 'a', 'r', 'y']
  | weekdayName .short => ['T', 'h', 'u']
  | weekdayName .long => ['T', 'h', 'u', 'r', 's', 'd', 'a', 'y']
  | halfDay _ => ['A', 'M']
  | fractionDigits p => List.replicate p.digits '0'
  | zoneName => ['U', 'T', 'C']
  | offset _ => ['+', '0', '0', '0', '0']
  | looseOffset => [' ', '+', '0', '0', '0', '0']
  | fraction _ => []
  | dateTime => []

/-- The slots that are filled when the text is read. -/
def slots : Item → List Slot
  | fraction _ => []
  | item => (item.fills 0).map (·.1)

/-- Whether the item is one that a time format can have: literal text begins with no blank, and
white space is blank. -/
def WellFormed : Item → Prop
  | literal text => ∃ c cs, text = c :: cs ∧ ¬isBlank c
  | space text => ∀ c ∈ text, isBlank c
  | _ => True

end Item

namespace Step

/-- The text of a step at the first instant of 1970. -/
def sample : Step → List Char
  | simple item => item.sample
  | separator => ['T']
  | zone => ['Z']

/-- The slots that are filled when the text is read. -/
def slots : Step → List Slot
  | simple item => item.slots
  | separator => []
  | zone => [.offset]

/-- Whether the step is one of items that a time format can have. -/
def WellFormed : Step → Prop
  | simple item => item.WellFormed
  | _ => True

/-- Whether the text of a step ends where the rest begins. -/
def ends (step : Step) (rest : List Char) : Bool :=
  match step with
  | simple (.number .epochSeconds _) => !rest.head?.any Char.isDigit
  | simple .zoneName => rest.head?.all isBlank
  | simple (.fraction _) => (trimStart rest).head? != some '.'
  | _ => true

/-- Whether the text of each step ends where those of the others begin. -/
def separated : List Step → Bool
  | [] => true
  | step :: steps => step.ends (steps.flatMap sample) && separated steps

end Step

/-- Slots with what they should hold at the first instant of 1970. -/
def Slot.writesAtEpoch (slots : List Slot) : List (Slot × Int) :=
  slots.map fun slot => (slot, slot.atEpoch)

/-! ### Numbers -/

namespace Quantity

/-- A quantity takes its number at the first instant of 1970. -/
theorem exists_store (q : Quantity) {f : Fields} (hf : f.AtEpoch) :
  ∃ f', q.store f q.atEpoch = .ok f' ∧ f'.AtEpoch
  := by
  cases q with
  | hour => exact hf.exists_putHour
  | century | yearOfCentury | weekYearOfCentury | weekdayFromSunday | hourOfHalf | nanosecond
      | epochSeconds =>
    exact hf.exists_put _ (by decide)
  | _ => exact hf.exists_putWithin _ rfl (by decide)

/-- The number in its full width begins with a digit. -/
theorem exists_sample_eq_cons (q : Quantity) :
  ∃ c ds, padded (q.width.getD 1) q.atEpoch = c :: ds ∧ c.isDigit
  := by
  have hwidth : 0 < q.width.getD 1 ∧ q.atEpoch < 10 ^ q.width.getD 1 := by cases q <;> decide
  exact exists_padded_eq_cons hwidth.1 hwidth.2

/-- The slots of a quantity are filled with what they should hold. -/
theorem fills_atEpoch (q : Quantity) :
  q.fills q.atEpoch = Slot.writesAtEpoch ((q.fills 0).map (·.1))
  := by
  cases q <;> rfl

/-- The number at the first instant of 1970 is read in its full width; the seconds since 1970 are
read up to the last digit. -/
theorem readNumber_sample (q : Quantity) {rest : List Char}
    (hends : q = epochSeconds → EndsDigits rest) :
  q.readNumber (padded (q.width.getD 1) q.atEpoch ++ rest) = .ok ((q.atEpoch : Int), rest)
  := by
  cases q with
  | epochSeconds =>
    obtain ⟨htake, -⟩ := @span_digits ['0'] rest (by simp) (hends rfl)
    change readDigits 1 none ('0' :: rest) = .ok (0, rest)
    have htake' : ('0' :: rest).takeWhile Char.isDigit = ['0'] := htake
    have hshort : shorterThan 1 ('0' :: rest) = false := shorterThan_of_length_le (by simp)
    rw [readDigits, hshort]
    simp only [htake', Bool.false_eq_true, if_false]
    rfl
  | _ => apply readNumber_padded rfl (by decide) (by decide) (by decide)

end Quantity

/-! ### Items -/

/-- Blanks at the start of a text can be removed beforehand. -/
theorem trimStart_eq_of_or {cs target : List Char} (h : cs = target ∨ cs = trimStart target) :
  trimStart cs = trimStart target
  := by
  obtain rfl | rfl := h
  · rfl
  · rw [trimStart, trimStart, List.dropWhile_idempotent]

/-- There are no blanks to remove from the start of a text that begins with none. -/
theorem eq_of_or {c : Char} (hc : ¬isBlank c) {cs target : List Char}
    (h : cs = c :: target ∨ cs = trimStart (c :: target)) :
  cs = c :: target
  := by
  rwa [trimStart_cons hc, or_self] at h

/-- Zeros are read as no part of a second. -/
theorem readFractionDigits_zeros (p : Precision) (rest : List Char) :
  readFractionDigits p (List.replicate p.digits '0' ++ rest) = .ok (0, rest)
  := by
  have hvalue : digitsValue (List.replicate p.digits '0') = 0 := by cases p <;> decide
  have hread := @readDigits_of_length p.digits (List.replicate p.digits '0')
    (fun _ hc => List.eq_of_mem_replicate hc ▸ rfl) (by simp) (by rw [hvalue]; decide) rest
  rw [List.length_replicate, hvalue] at hread
  rw [readFractionDigits, hread]
  simp [Except.map]

/-- A literal text is read. -/
theorem readLiteral_append (text rest : List Char) :
  readLiteral text (text ++ rest) = .ok ((), rest)
  := by
  have hlength : ¬utf8Length (text ++ rest) < utf8Length text := by
    rw [utf8Length_append]
    omega
  rw [readLiteral, if_neg hlength, if_pos (List.isPrefixOf_iff_prefix.2 (List.prefix_append _ _)),
    List.drop_left]

namespace Step

/-- A number that is read and then stored. -/
theorem reading_of_ok {r : Except TimeError (Int × List Char)} {n : Int} {rest : List Char}
    (hr : r = .ok (n, rest)) (store : Int → Except TimeError Fields) {f' : Fields}
    (hstore : store n = .ok f') :
  (do let (n, rest) ← r; .ok (← store n, rest)) = Except.ok (f', rest)
  := by
  rw [hr]
  simp only [bind, Except.bind, hstore]

/-- A step reads its text at the first instant of 1970, of which the blanks at the start may be
gone, and leaves what follows, maybe without the blanks at its start. -/
theorem read_sample {step : Step} (hwell : step.WellFormed) {f : Fields} (hf : f.AtEpoch)
    {rest : List Char} (hends : step.ends rest) {cs : List Char}
    (hcs : cs = step.sample ++ rest ∨ cs = trimStart (step.sample ++ rest)) :
  ∃ f' cs', step.read f cs = .ok (f', cs') ∧ (cs' = rest ∨ cs' = trimStart rest)
    ∧ f.Adds (Slot.writesAtEpoch step.slots) f'
  := by
  cases step with
  | separator =>
    obtain rfl := eq_of_or (by decide) hcs
    exact ⟨f, rest, rfl, .inl rfl, Fields.adds_nil f⟩
  | zone =>
    obtain rfl := eq_of_or (by decide) hcs
    have hr : Item.readZone (trimStart ('Z' :: rest)) = .ok (0, rest) := rfl
    obtain ⟨f', hput, -⟩ := hf.exists_put .offset rfl
    exact ⟨f', rest, reading_of_ok hr _ hput, .inl rfl, Fields.adds_of_put hput⟩
  | simple item =>
    cases item with
    | dateTime => exact ⟨f, cs, rfl, hcs, Fields.adds_nil f⟩
    | literal text =>
      obtain ⟨c, text, rfl, hc⟩ := hwell
      obtain rfl := eq_of_or hc hcs
      have hread : Item.readSimple (.literal (c :: text)) f (c :: text ++ rest)
          = .ok (f, rest) := by
        rw [Item.readSimple, readLiteral_append]
        rfl
      exact ⟨f, rest, hread, .inl rfl, Fields.adds_nil f⟩
    | space text =>
      have htrim := (trimStart_eq_of_or hcs).trans (List.dropWhile_append_of_pos hwell)
      exact ⟨f, trimStart cs, rfl, .inr htrim, Fields.adds_nil f⟩
    | number q pad =>
      have htrim : trimStart cs = padded (q.width.getD 1) q.atEpoch ++ rest := by
        obtain ⟨c, ds, hcons, hdigit⟩ := q.exists_sample_eq_cons
        rw [trimStart_eq_of_or hcs]
        change trimStart (padded (q.width.getD 1) q.atEpoch ++ rest) = _
        rw [hcons, List.cons_append, trimStart_cons (not_isBlank_of_isDigit hdigit)]
      have hr : q.readNumber (trimStart cs) = .ok ((q.atEpoch : Int), rest) := by
        rw [htrim]
        apply q.readNumber_sample
        rintro rfl c hc
        simpa [ends, Option.mem_def.1 hc] using hends
      obtain ⟨f', hstore, -⟩ := q.exists_store hf
      refine ⟨f', rest, reading_of_ok hr _ hstore, .inl rfl, ?_⟩
      have hadds := Quantity.adds_of_store hstore
      rwa [q.fills_atEpoch] at hadds
    | monthName form =>
      obtain rfl : cs = Item.sample (.monthName form) ++ rest := by
        cases form <;> exact eq_of_or (by decide) hcs
      have hr : readName monthNames form (Item.sample (.monthName form) ++ rest)
          = .ok (0, rest) := by
        cases form <;> rfl
      obtain ⟨f', hput, -⟩ := hf.exists_put .month rfl
      exact ⟨f', rest, reading_of_ok hr (fun i => f.put .month (i + 1)) hput, .inl rfl,
        Fields.adds_of_put hput⟩
    | weekdayName form =>
      obtain rfl : cs = Item.sample (.weekdayName form) ++ rest := by
        cases form <;> exact eq_of_or (by decide) hcs
      have hr : readName weekdayNames form (Item.sample (.weekdayName form) ++ rest)
          = .ok (3, rest) := by
        cases form <;> rfl
      obtain ⟨f', hput, -⟩ := hf.exists_put .weekday rfl
      exact ⟨f', rest, reading_of_ok hr _ hput, .inl rfl, Fields.adds_of_put hput⟩
    | halfDay upper =>
      obtain rfl := eq_of_or (by decide) hcs
      have hr : readHalf ('A' :: 'M' :: rest) = .ok (0, rest) := rfl
      obtain ⟨f', hput, -⟩ := hf.exists_put .half rfl
      exact ⟨f', rest, reading_of_ok hr _ hput, .inl rfl, Fields.adds_of_put hput⟩
    | fraction precision =>
      have hpoint : ∀ rest', cs ≠ '.' :: rest' := by
        rintro rest' rfl
        have htrim := trimStart_eq_of_or hcs
        rw [trimStart_cons (by decide)] at htrim
        change '.' :: rest' = trimStart rest at htrim
        simp [ends, ← htrim] at hends
      have hread : Item.readSimple (.fraction precision) f cs = .ok (f, cs) := by
        rw [Item.readSimple]
        exact hpoint
      exact ⟨f, cs, hread, hcs, Fields.adds_nil f⟩
    | fractionDigits p =>
      obtain rfl : cs = Item.sample (.fractionDigits p) ++ rest := by
        cases p <;> exact eq_of_or (by decide) hcs
      have hr : readFractionDigits p (Item.sample (.fractionDigits p) ++ rest)
          = .ok (0, rest) := readFractionDigits_zeros p rest
      obtain ⟨f', hput, -⟩ := hf.exists_put .nanosecond rfl
      exact ⟨f', rest, reading_of_ok hr _ hput, .inl rfl, Fields.adds_of_put hput⟩
    | zoneName =>
      obtain rfl := eq_of_or (by decide) hcs
      have hrest : rest.dropWhile (fun c => !isBlank c) = rest := by
        cases rest with
        | nil => rfl
        | cons c rest =>
          apply List.dropWhile_cons_of_neg
          simpa [ends] using hends
      exact ⟨f, _, rfl, .inl hrest, Fields.adds_nil f⟩
    | offset form =>
      obtain rfl := eq_of_or (by decide) hcs
      have hr : readOffset false false (trimStart (Item.sample (.offset form) ++ rest))
          = .ok (0, rest) := rfl
      obtain ⟨f', hput, -⟩ := hf.exists_put .offset rfl
      exact ⟨f', rest, reading_of_ok hr _ hput, .inl rfl, Fields.adds_of_put hput⟩
    | looseOffset =>
      have hr : readOffset true true (trimStart cs) = .ok (0, rest) := by
        rw [trimStart_eq_of_or hcs]
        rfl
      obtain ⟨f', hput, -⟩ := hf.exists_put .offset rfl
      exact ⟨f', rest, reading_of_ok hr _ hput, .inl rfl, Fields.adds_of_put hput⟩

end Step

/-! ### Items of a format -/

namespace Item

/-- The items of a specifier of one character are those that a time format can have. -/
theorem wellFormed_of_ofSpecifier? {c : Char} {items : List Item}
    (h : ofSpecifier? c = some items) :
  ∀ item ∈ items, item.WellFormed
  := by
  have hwell : ¬isBlank '-' ∧ ¬isBlank '/' ∧ ¬isBlank ':' ∧ ¬isBlank '%' := by decide
  have hblank : isBlank ' ' ∧ isBlank '\n' ∧ isBlank '\t' := by decide
  unfold ofSpecifier? at h
  split at h <;> cases h <;>
    simp [WellFormed, zeroed, char, slashDate, fullDate, clockTime, hwell, hblank]

/-- The items of a specifier are those that a time format can have. -/
theorem wellFormed_of_specifier? {cs rest : List Char} {items : List Item}
    (h : specifier? cs = some (items, rest)) :
  ∀ item ∈ items, item.WellFormed
  := by
  have hpad : ∀ {pad : Pad} {c : Char} {rest' : List Char},
      (withPad? pad c).map (·, rest') = some (items, rest) → ∀ item ∈ items, item.WellFormed := by
    intro pad c rest' h
    rw [withPad?] at h
    split at h <;> cases h
    simp [WellFormed]
  -- Three specifiers name their own padding, and the last but one is a single character.
  unfold specifier? at h
  split at h
  case h_2 | h_3 | h_4 => exact hpad h
  case h_15 =>
    obtain ⟨items', hitems, h⟩ := Option.map_eq_some_iff.1 h
    cases h
    exact wellFormed_of_ofSpecifier? hitems
  case h_16 => cases h
  all_goals
    cases h
    simp [WellFormed]

/-- The items of a text are those that a time format can have. -/
theorem wellFormed_of_ofText? {cs : List Char} {items : List Item} (h : ofText? cs = some items) :
  ∀ item ∈ items, item.WellFormed
  := by
  fun_induction ofText? cs generalizing items with
  | case1 =>
    cases h
    simp
  | case2 ds hread => cases h
  | case3 ds items' rest hread ih =>
    obtain ⟨others, hothers, rfl⟩ := Option.map_eq_some_iff.1 h
    intro item hitem
    obtain hitem | hitem := List.mem_append.1 hitem
    · exact wellFormed_of_specifier? hread item hitem
    · exact ih hothers item hitem
  | case4 c ds hpercent hblank ih =>
    obtain ⟨others, hothers, rfl⟩ := Option.map_eq_some_iff.1 h
    have hspace : ∀ d ∈ c :: ds.takeWhile isBlank, isBlank d :=
      List.forall_mem_cons.2 ⟨hblank, fun d hd => List.mem_takeWhile_imp hd⟩
    exact List.forall_mem_cons.2 ⟨hspace, ih hothers⟩
  | case5 c ds hpercent hblank ih =>
    obtain ⟨others, hothers, rfl⟩ := Option.map_eq_some_iff.1 h
    exact List.forall_mem_cons.2 ⟨⟨c, _, rfl, hblank⟩, ih hothers⟩

end Item

/-! ### Whole formats -/

theorem Slot.mem_writesAtEpoch {slots : List Slot} {slot : Slot} {v : Int} :
  (slot, v) ∈ writesAtEpoch slots ↔ slot ∈ slots ∧ v = slot.atEpoch
  := by
  simp only [writesAtEpoch, List.mem_map, Prod.mk.injEq]
  constructor
  · rintro ⟨_, hslot, rfl, rfl⟩
    exact ⟨hslot, rfl⟩
  · rintro ⟨hslot, rfl⟩
    exact ⟨slot, hslot, rfl, rfl⟩

/-- Steps that are separated read their text at the first instant of 1970 up to its end, and fill
their slots. -/
theorem foldlM_read_sample {steps : List Step} (hwell : ∀ step ∈ steps, step.WellFormed)
    (hseparated : Step.separated steps) {f : Fields} (hf : f.AtEpoch) {cs : List Char}
    (hcs : cs = steps.flatMap Step.sample ∨ cs = trimStart (steps.flatMap Step.sample)) :
  ∃ f', steps.foldlM (fun (f, cs) step => step.read f cs) (f, cs) = .ok (f', [])
    ∧ f.Adds (Slot.writesAtEpoch (steps.flatMap Step.slots)) f'
  := by
  induction steps generalizing f cs with
  | nil =>
    obtain rfl : cs = [] := by simpa [trimStart] using hcs
    exact ⟨f, rfl, Fields.adds_nil f⟩
  | cons step steps ih =>
    obtain ⟨hstep, hsteps⟩ := List.forall_mem_cons.1 hwell
    rw [Step.separated, Bool.and_eq_true] at hseparated
    rw [List.flatMap_cons] at hcs
    obtain ⟨f₁, cs₁, hread, hcs₁, hadds⟩ := Step.read_sample hstep hf hseparated.1 hcs
    have hf₁ : f₁.AtEpoch := hf.of_adds hadds fun _ _ h => (Slot.mem_writesAtEpoch.1 h).2
    obtain ⟨f₂, hfold, hadds'⟩ := ih hsteps hseparated.2 hf₁ hcs₁
    refine ⟨f₂, ?_, ?_⟩
    · rw [List.foldlM_cons]
      exact bind_eq_ok.2 ⟨_, hread, hfold⟩
    · rw [List.flatMap_cons, Slot.writesAtEpoch, List.map_append]
      exact hadds.append hadds'

/-- The steps of an item that a time format can have are those of such items. -/
theorem Item.WellFormed.steps {item : Item} (h : item.WellFormed) :
  ∀ step ∈ item.steps, step.WellFormed
  := by
  by_cases hitem : item = .dateTime
  · subst hitem
    have hdash : ¬isBlank '-' := by decide
    have hcolon : ¬isBlank ':' := by decide
    simp [Item.steps, spaced, fullDate, clockTime, zeroed, char, Step.WellFormed, WellFormed,
      hdash, hcolon]
  · rw [steps_of_ne hitem]
    intro step hstep
    obtain rfl := List.mem_singleton.1 hstep
    exact h

/-- The text of items at the first instant of 1970. -/
def Item.textAtEpoch (items : List Item) : List Char :=
  (items.flatMap steps).flatMap Step.sample

/-- The slots that are filled are those of the list. -/
def Fields.Filled (f : Fields) (slots : List Slot) : Prop :=
  ∀ slot, (∃ v, f slot = some v) ↔ slot ∈ slots

/-- Items that are separated read their text at the first instant of 1970, and fill the slots of
their steps. -/
theorem readFields_sample {items : List Item} (hwell : ∀ item ∈ items, item.WellFormed)
    (hseparated : Step.separated (items.flatMap Item.steps)) :
  ∃ f, readFields items (Item.textAtEpoch items) = .ok f ∧ f.AtEpoch
    ∧ f.Filled ((items.flatMap Item.steps).flatMap Step.slots)
  := by
  have hsteps : ∀ step ∈ items.flatMap Item.steps, step.WellFormed := by
    intro step hstep
    obtain ⟨item, hitem, hstep⟩ := List.mem_flatMap.1 hstep
    exact (hwell item hitem).steps step hstep
  obtain ⟨f, hfold, hadds⟩ :=
    foldlM_read_sample hsteps hseparated Fields.atEpoch_unfilled (.inl rfl)
  have hread : readItems items (Item.textAtEpoch items) = .ok (f, []) := by
    rw [readItems_eq_steps]
    exact hfold
  refine ⟨f, bind_eq_ok.2 ⟨_, hread, rfl⟩, ?_, ?_⟩
  · exact Fields.atEpoch_unfilled.of_adds hadds fun _ _ h => (Slot.mem_writesAtEpoch.1 h).2
  · intro slot
    constructor
    · rintro ⟨v, hv⟩
      obtain hnone | hmem := (hadds slot v).1 hv
      · cases hnone
      · exact (Slot.mem_writesAtEpoch.1 hmem).1
    · intro hslot
      exact ⟨slot.atEpoch, (hadds slot _).2 (.inr (Slot.mem_writesAtEpoch.2 ⟨hslot, rfl⟩))⟩

end LogFormat
