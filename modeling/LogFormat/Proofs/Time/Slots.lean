import LogFormat.Proofs.Results
import LogFormat.Proofs.Text.Decimal
import LogFormat.Time.Reading
import Mathlib.Data.List.Induction

/-!
# What the items of a time format state

An item states a number at the front of the text that it reads (`Item.value?`), and fills slots
with it (`Item.fills`).  When a text has been read, its slots hold exactly what the items of the
format have stated, each at its place (`readItems_eq_ok`).
-/

namespace LogFormat

/-! ### Slots -/

namespace Fields

/-- The slots that are filled afterwards are those that were filled before, and the given ones. -/
def Adds (f : Fields) (writes : List (Slot × Int)) (f' : Fields) : Prop :=
  ∀ slot v, f' slot = some v ↔ f slot = some v ∨ (slot, v) ∈ writes

variable {f f' f'' : Fields}

theorem adds_nil (f : Fields) :
  f.Adds [] f
  := by
  intro slot v
  simp

theorem Adds.append {writes writes' : List (Slot × Int)} (h : f.Adds writes f')
    (h' : f'.Adds writes' f'') :
  f.Adds (writes ++ writes') f''
  := by
  intro slot v
  rw [h', h, List.mem_append, or_assoc]

/-- A slot that takes a value holds it afterwards, and the others are as they were. -/
theorem adds_of_put {slot : Slot} {v : Int} (h : f.put slot v = .ok f') :
  f.Adds [(slot, v)] f'
  := by
  intro slot' v'
  rw [List.mem_singleton, Prod.mk.injEq]
  rw [put] at h
  split at h
  · next hempty =>
    cases h
    by_cases hslot : slot' = slot
    · subst hslot
      simp [hempty, eq_comm]
    · simp [hslot]
  · next held hheld =>
    split at h
    · next heq =>
      cases h
      constructor
      · exact .inl
      · rintro (hv | ⟨rfl, rfl⟩)
        · exact hv
        · rw [hheld, heq]
    · cases h

theorem adds_of_putWithin {slot : Slot} {least most v : Int}
    (h : f.putWithin slot least most v = .ok f') :
  (least ≤ v ∧ v ≤ most) ∧ f.Adds [(slot, v)] f'
  := by
  rw [putWithin] at h
  split at h
  · next hbounds => exact ⟨hbounds, adds_of_put h⟩
  · cases h

/-- An hour is held as the half of the day and the hour of that half. -/
theorem adds_of_putHour {hour : Int} (h : f.putHour hour = .ok f') :
  (0 ≤ hour ∧ hour ≤ 23) ∧ f.Adds [(.half, hour / 12), (.hourOfHalf, hour % 12)] f'
  := by
  rw [putHour] at h
  split at h
  · next hbounds =>
    obtain ⟨f'', hhalf, hhour⟩ := bind_eq_ok.1 h
    exact ⟨hbounds, (adds_of_put hhalf).append (adds_of_put hhour)⟩
  · cases h

end Fields

/-! ### Numbers -/

/-- Digits that are read are a number of no more digits, and the rest of the text is what comes
after them. -/
theorem readDigits_eq_ok {least most : Nat} {cs rest : List Char} {n : Int}
    (h : readDigits least (some most) cs = .ok (n, rest)) :
  ∃ digits ≤ most, digits ≤ cs.length ∧ rest = cs.drop digits
    ∧ ∃ value : Nat, n = value ∧ value < 10 ^ digits
  := by
  have htake : ((cs.take most).takeWhile Char.isDigit).length ≤ (cs.take most).length :=
    (List.takeWhile_prefix _).length_le
  rw [List.length_take] at htake
  simp only [readDigits] at h
  split at h
  · cases h
  · split at h
    · cases h
    · split at h
      · cases h
      · cases h
        exact ⟨_, by omega, by omega, rfl, _, rfl, digitsValue_lt List.all_takeWhile⟩

/-- Digits that are filled up to nine are a part of a second. -/
theorem nanos_bounds {value digits : Nat} (hdigits : digits ≤ 9) (h : value < 10 ^ digits) :
  0 ≤ (value : Int) * Nat.pow 10 (9 - digits) ∧ (value : Int) * Nat.pow 10 (9 - digits) ≤ 999999999
  := by
  have hpos : 0 < 10 ^ (9 - digits) := Nat.pow_pos (by decide)
  have hlt : value * 10 ^ (9 - digits) < 10 ^ digits * 10 ^ (9 - digits) :=
    Nat.mul_lt_mul_of_pos_right h hpos
  rw [← Nat.pow_add, Nat.add_sub_cancel' hdigits] at hlt
  have hcast : (value : Int) * Nat.pow 10 (9 - digits) = (value * 10 ^ (9 - digits) : Nat) := by
    rw [Int.natCast_mul]
    rfl
  omega

/-- The digits of a part of a second that are read are less than a second. -/
theorem readFractionDigits_bounds {p : Precision} {cs rest : List Char} {n : Int}
    (h : readFractionDigits p cs = .ok (n, rest)) :
  0 ≤ n ∧ n ≤ 999999999
  := by
  rw [readFractionDigits] at h
  obtain ⟨⟨m, rest'⟩, hread, hresult⟩ := map_eq_ok.1 h
  cases hresult
  obtain ⟨digits, hdigits, -, -, value, rfl, hlt⟩ := readDigits_eq_ok hread
  have hp : p.digits ≤ 9 := by cases p <;> decide
  exact nanos_bounds hp (Nat.lt_of_lt_of_le hlt (Nat.pow_le_pow_right (by decide) hdigits))

/-- A part of a second that is read is less than a second. -/
theorem readFraction_bounds {cs rest : List Char} {n : Int}
    (h : readFraction cs = .ok (n, rest)) :
  0 ≤ n ∧ n ≤ 999999999
  := by
  rw [readFraction] at h
  obtain ⟨⟨m, rest'⟩, hread, hresult⟩ := map_eq_ok.1 h
  cases hresult
  obtain ⟨digits, hdigits, hle, rfl, value, rfl, hlt⟩ := readDigits_eq_ok hread
  rw [List.length_drop, Nat.sub_sub_self hle]
  exact nanos_bounds hdigits hlt

namespace Quantity

/-- The slots that a quantity fills. -/
def fills (q : Quantity) (n : Int) : List (Slot × Int) :=
  match q with
  | year => [(.year, n)]
  | century => [(.century, n)]
  | yearOfCentury => [(.yearOfCentury, n)]
  | weekYear => [(.weekYear, n)]
  | weekYearOfCentury => [(.weekYearOfCentury, n)]
  | quarter => [(.quarter, n)]
  | month => [(.month, n)]
  | day => [(.day, n)]
  | weekFromSunday => [(.weekFromSunday, n)]
  | weekFromMonday => [(.weekFromMonday, n)]
  | week => [(.week, n)]
  | weekdayFromSunday => [(.weekday, (n + 6) % 7)]
  | weekdayFromMonday => [(.weekday, n - 1)]
  | ordinal => [(.ordinal, n)]
  | hour => [(.half, n / 12), (.hourOfHalf, n % 12)]
  | hourOfHalf => [(.hourOfHalf, n % 12)]
  | minute => [(.minute, n)]
  | second => [(.second, n)]
  | nanosecond => [(.nanosecond, n)]
  | epochSeconds => [(.epochSeconds, n)]

/-- The numbers that a quantity of the clock can have, and a year of a century. -/
def Allows (q : Quantity) (n : Int) : Prop :=
  match q with
  | yearOfCentury => 0 ≤ n ∧ n ≤ 99
  | hour => 0 ≤ n ∧ n ≤ 23
  | hourOfHalf => 1 ≤ n ∧ n ≤ 12
  | minute => 0 ≤ n ∧ n ≤ 59
  | second => 0 ≤ n ∧ n ≤ 60
  | nanosecond => 0 ≤ n ∧ n ≤ 999999999
  | _ => True

/-- A quantity that is stored fills its slots. -/
theorem adds_of_store {q : Quantity} {f f' : Fields} {n : Int} (h : q.store f n = .ok f') :
  f.Adds (q.fills n) f'
  := by
  cases q with
  | hour => exact (Fields.adds_of_putHour h).2
  | hourOfHalf | weekdayFromSunday =>
    simp only [store] at h
    split at h
    · exact Fields.adds_of_put h
    · cases h
  | century | yearOfCentury | weekYearOfCentury | nanosecond | epochSeconds =>
    exact Fields.adds_of_put h
  | _ => exact (Fields.adds_of_putWithin h).2

/-- A quantity that is read and stored is one that there can be. -/
theorem allows_of_store {q : Quantity} {f f' : Fields} {cs rest : List Char} {n : Int}
    (hread : q.readNumber cs = .ok (n, rest)) (h : q.store f n = .ok f') :
  q.Allows n
  := by
  cases q with
  | hour => exact (Fields.adds_of_putHour h).1
  | hourOfHalf =>
    simp only [store] at h
    split at h
    · next hbounds => exact hbounds
    · cases h
  | minute | second => exact (Fields.adds_of_putWithin h).1
  | yearOfCentury =>
    obtain ⟨digits, hdigits, -, -, value, rfl, hlt⟩ := readDigits_eq_ok hread
    have := Nat.pow_le_pow_right (by decide : 0 < 10) hdigits
    rw [Allows]
    omega
  | nanosecond =>
    obtain ⟨digits, hdigits, -, -, value, rfl, hlt⟩ := readDigits_eq_ok hread
    have := Nat.pow_le_pow_right (by decide : 0 < 10) hdigits
    rw [Allows]
    omega
  | _ => trivial

end Quantity

/-! ### Items -/

namespace Item

/-- Reads the digits of a part of a second after its point. -/
def readPart : Option Precision → List Char → Except TimeError (Int × List Char)
  | none => readFraction
  | some p => readFractionDigits p

/-- The number that an item states at the front of a text.  That of the name of a month counts
from 1, and a part of a second is in nanoseconds. -/
def value? (item : Item) (cs : List Char) : Option Int :=
  match item with
  | number q _ => (q.readNumber (trimStart cs)).toOption.map (·.1)
  | monthName form => (readName monthNames form cs).toOption.map (·.1 + 1)
  | weekdayName form => (readName weekdayNames form cs).toOption.map (·.1)
  | halfDay _ => (readHalf cs).toOption.map (·.1)
  | fraction precision =>
    match cs with
    | '.' :: rest => (readPart precision rest).toOption.map (·.1)
    | _ => none
  | fractionDigits p => (readFractionDigits p cs).toOption.map (·.1)
  | offset _ => (readOffset false false (trimStart cs)).toOption.map (·.1)
  | looseOffset => (readOffset true true (trimStart cs)).toOption.map (·.1)
  | _ => none

/-- The slots that an item fills with the number that it states. -/
def fills (item : Item) (n : Int) : List (Slot × Int) :=
  match item with
  | number q _ => q.fills n
  | monthName _ => [(.month, n)]
  | weekdayName _ => [(.weekday, n)]
  | halfDay _ => [(.half, n)]
  | fraction _ => [(.nanosecond, n)]
  | fractionDigits _ => [(.nanosecond, n)]
  | offset _ => [(.offset, n)]
  | looseOffset => [(.offset, n)]
  | _ => []

/-- The numbers that an item of the clock can state, and a year of a century. -/
def Allows (item : Item) (n : Int) : Prop :=
  match item with
  | number q _ => q.Allows n
  | halfDay _ => 0 ≤ n ∧ n ≤ 1
  | fraction _ => 0 ≤ n ∧ n ≤ 999999999
  | fractionDigits _ => 0 ≤ n ∧ n ≤ 999999999
  | _ => True

/-- The slots that an item fills when it reads the front of a text. -/
def writes (item : Item) (cs : List Char) : List (Slot × Int) :=
  (item.value? cs).elim [] item.fills

/-- An item fills the slots for the number that it states. -/
theorem mem_writes {item : Item} {cs : List Char} {slot : Slot} {v : Int} :
  (slot, v) ∈ item.writes cs ↔ ∃ n, item.value? cs = some n ∧ (slot, v) ∈ item.fills n
  := by
  rw [writes]
  cases item.value? cs <;> simp

/-- A number that is read and then stored. -/
theorem reading_eq_ok {r : Except TimeError (Int × List Char)}
    (store : Int → Except TimeError Fields) {f' : Fields} {rest : List Char}
    (h : (do let (n, rest) ← r; .ok (← store n, rest)) = Except.ok (f', rest)) :
  ∃ n, r = .ok (n, rest) ∧ store n = .ok f'
  := by
  obtain ⟨⟨n, rest'⟩, hr, h⟩ := bind_eq_ok.1 h
  obtain ⟨f'', hstore, h⟩ := bind_eq_ok.1 h
  cases h
  exact ⟨n, hr, hstore⟩

/-- The half of the day that is read is the first or the second. -/
theorem readHalf_bounds {cs rest : List Char} {n : Int} (h : readHalf cs = .ok (n, rest)) :
  0 ≤ n ∧ n ≤ 1
  := by
  rw [readHalf] at h
  split at h
  · cases h
  · split at h
    · cases h
      decide
    · split at h
      · cases h
        decide
      · cases h

/-- A part of a second that is read is less than a second. -/
theorem readPart_bounds {precision : Option Precision} {cs rest : List Char} {n : Int}
    (h : readPart precision cs = .ok (n, rest)) :
  0 ≤ n ∧ n ≤ 999999999
  := by
  cases precision with
  | none => exact readFraction_bounds h
  | some p => exact readFractionDigits_bounds h

/-- What an item states where it can be read: a number that there can be, or none, if it is no
number and no name, or a part of a second that is left out. -/
def Plausible (item : Item) (cs : List Char) : Prop :=
  match item.value? cs with
  | some n => item.Allows n
  | none => (∀ n, item.fills n = []) ∨ ∃ p, item = fraction p ∧ cs.head? ≠ some '.'

/-- An item has been read, and has filled its slots with the number that it states. -/
def Stated (item : Item) (f : Fields) (cs : List Char) (f' : Fields) : Prop :=
  f.Adds (item.writes cs) f' ∧ item.Plausible cs

/-- An item that states no number fills no slot. -/
theorem stated_of_none {item : Item} {cs : List Char} (h : item.value? cs = none)
    (hsilent : (∀ n, item.fills n = []) ∨ ∃ p, item = fraction p ∧ cs.head? ≠ some '.')
    (f : Fields) :
  item.Stated f cs f
  := by
  rw [Stated, writes, Plausible, h]
  exact ⟨Fields.adds_nil f, hsilent⟩

/-- An item that states a number fills its slots with it. -/
theorem stated_of_some {item : Item} {f f' : Fields} {cs : List Char} {n : Int}
    (h : item.value? cs = some n) (hadds : f.Adds (item.fills n) f') (hallows : item.Allows n) :
  item.Stated f cs f'
  := by
  rw [Stated, writes, Plausible, h]
  exact ⟨hadds, hallows⟩

/-- An item that reads the front of a text fills its slots with the number that it states, which
is one that there can be. -/
theorem stated_of_read {item : Item} (hitem : item ≠ dateTime) {f f' : Fields}
    {cs rest : List Char} (h : item.read f cs = .ok (f', rest)) :
  item.Stated f cs f'
  := by
  cases item with
  | dateTime => exact absurd rfl hitem
  | literal text =>
    obtain ⟨⟨⟨⟩, rest'⟩, hread, h⟩ := bind_eq_ok.1 h
    cases h
    exact stated_of_none rfl (.inl fun _ => rfl) f
  | space text | zoneName =>
    cases h
    exact stated_of_none rfl (.inl fun _ => rfl) f
  | number q pad =>
    obtain ⟨n, hread, hstore⟩ := reading_eq_ok (q.store f) h
    have hvalue : (number q pad).value? cs = some n := by rw [value?, hread]; rfl
    exact stated_of_some hvalue (Quantity.adds_of_store hstore)
      (Quantity.allows_of_store hread hstore)
  | monthName form =>
    obtain ⟨n, hread, hstore⟩ := reading_eq_ok (fun n => f.put .month (n + 1)) h
    have hvalue : (monthName form).value? cs = some (n + 1) := by rw [value?, hread]; rfl
    exact stated_of_some hvalue (Fields.adds_of_put hstore) trivial
  | weekdayName form =>
    obtain ⟨n, hread, hstore⟩ := reading_eq_ok (f.put .weekday) h
    have hvalue : (weekdayName form).value? cs = some n := by rw [value?, hread]; rfl
    exact stated_of_some hvalue (Fields.adds_of_put hstore) trivial
  | halfDay upper =>
    obtain ⟨n, hread, hstore⟩ := reading_eq_ok (f.put .half) h
    have hvalue : (halfDay upper).value? cs = some n := by rw [value?, hread]; rfl
    exact stated_of_some hvalue (Fields.adds_of_put hstore) (readHalf_bounds hread)
  | fraction precision =>
    by_cases hpoint : ∃ rest', cs = '.' :: rest'
    · obtain ⟨rest', rfl⟩ := hpoint
      have hpart : ∃ n, readPart precision rest' = .ok (n, rest)
          ∧ f.put .nanosecond n = .ok f' := by
        cases precision <;> exact reading_eq_ok (f.put .nanosecond) h
      obtain ⟨n, hread, hstore⟩ := hpart
      have hvalue : (fraction precision).value? ('.' :: rest') = some n := by
        rw [value?, hread]
        rfl
      exact stated_of_some hvalue (Fields.adds_of_put hstore) (readPart_bounds hread)
    · have hvalue : (fraction precision).value? cs = none := by
        rw [value?]
        rintro rest' rfl
        exact hpoint ⟨rest', rfl⟩
      have hread : (fraction precision).read f cs = .ok (f, cs) := by
        rw [read, readSimple]
        · rintro rest' rfl
          exact hpoint ⟨rest', rfl⟩
        · rintro ⟨⟩
      cases hread.symm.trans h
      refine stated_of_none hvalue (.inr ⟨precision, rfl, ?_⟩) f
      intro hhead
      obtain ⟨rest', rfl⟩ := List.head?_eq_some_iff.1 hhead
      exact hpoint ⟨rest', rfl⟩
  | fractionDigits p =>
    obtain ⟨n, hread, hstore⟩ := reading_eq_ok (f.put .nanosecond) h
    have hvalue : (fractionDigits p).value? cs = some n := by rw [value?, hread]; rfl
    exact stated_of_some hvalue (Fields.adds_of_put hstore) (readFractionDigits_bounds hread)
  | offset form =>
    obtain ⟨n, hread, hstore⟩ := reading_eq_ok (f.put .offset) h
    have hvalue : (offset form).value? cs = some n := by rw [value?, hread]; rfl
    exact stated_of_some hvalue (Fields.adds_of_put hstore) trivial
  | looseOffset =>
    obtain ⟨n, hread, hstore⟩ := reading_eq_ok (f.put .offset) h
    have hvalue : looseOffset.value? cs = some n := by rw [value?, hread]; rfl
    exact stated_of_some hvalue (Fields.adds_of_put hstore) trivial

end Item

/-! ### Parts of a text -/

section parts

variable {ι : Type} {read : ι → Fields → List Char → Except TimeError (Fields × List Char)}

/-- Reads the front of a text part by part, from no slot filled. -/
def readParts (read : ι → Fields → List Char → Except TimeError (Fields × List Char))
    (parts : List ι) (cs : List Char) : Except TimeError (Fields × List Char) :=
  parts.foldlM (fun (f, cs) part => read part f cs) (Fields.unfilled, cs)

/-- A part of a list stands before what is left of the text by those before it. -/
def StandsAt (read : ι → Fields → List Char → Except TimeError (Fields × List Char))
    (parts : List ι) (raw : List Char) (part : ι) (cs : List Char) : Prop :=
  ∃ before after f, parts = before ++ part :: after ∧ readParts read before raw = .ok (f, cs)

/-- A part that stands somewhere is one of the list. -/
theorem mem_of_standsAt {parts : List ι} {raw cs : List Char} {part : ι}
    (h : StandsAt read parts raw part cs) :
  part ∈ parts
  := by
  obtain ⟨before, after, f, rfl, -⟩ := h
  simp

/-- When a text has been read, each part stands somewhere. -/
theorem exists_standsAt {parts : List ι} {raw rest : List Char} {f : Fields}
    (h : readParts read parts raw = .ok (f, rest)) {part : ι} (hpart : part ∈ parts) :
  ∃ cs, StandsAt read parts raw part cs
  := by
  obtain ⟨before, after, rfl⟩ := List.append_of_mem hpart
  rw [readParts, List.foldlM_append] at h
  obtain ⟨⟨f', cs⟩, hbefore, -⟩ := bind_eq_ok.1 h
  exact ⟨cs, before, after, f', rfl, hbefore⟩

/-- The part at an index stands before what the parts before it leave. -/
theorem standsAt_of_take {parts : List ι} {part : ι} {raw cs : List Char} (i : Nat)
    (hpart : parts[i]? = some part)
    (hrest : (readParts read (parts.take i) raw).toOption.map (·.2) = some cs) :
  StandsAt read parts raw part cs
  := by
  obtain ⟨hi, rfl⟩ := List.getElem?_eq_some_iff.1 hpart
  cases hread : readParts read (parts.take i) raw with
  | error e =>
    rw [hread] at hrest
    cases hrest
  | ok result =>
    rw [hread] at hrest
    cases hrest
    refine ⟨parts.take i, parts.drop (i + 1), result.1, ?_, hread⟩
    rw [List.getElem_cons_drop, List.take_append_drop]

/-- The last part reads what the others have left. -/
theorem readParts_concat {parts : List ι} {last : ι} {cs rest : List Char} {f : Fields} :
  readParts read (parts ++ [last]) cs = .ok (f, rest)
    ↔ ∃ f' rest', readParts read parts cs = .ok (f', rest') ∧ read last f' rest' = .ok (f, rest)
  := by
  rw [readParts, List.foldlM_append, bind_eq_ok, Prod.exists]
  simp only [List.foldlM_cons, List.foldlM_nil, bind_pure, readParts]

/-- With one more part, the last part stands before what the others have left. -/
theorem standsAt_concat {parts : List ι} {raw rest : List Char} {f : Fields}
    (h : readParts read parts raw = .ok (f, rest)) {last part : ι} {cs : List Char} :
  StandsAt read (parts ++ [last]) raw part cs
    ↔ StandsAt read parts raw part cs ∨ part = last ∧ cs = rest
  := by
  constructor
  · rintro ⟨before, after, f', heq, hbefore⟩
    obtain rfl | ⟨after, last', rfl⟩ := List.eq_nil_or_concat after
    · obtain ⟨rfl, hlast⟩ := List.append_inj' heq rfl
      cases h.symm.trans hbefore
      exact .inr ⟨(List.singleton_inj.1 hlast).symm, rfl⟩
    · rw [List.concat_eq_append, ← List.cons_append, ← List.append_assoc] at heq
      obtain ⟨rfl, -⟩ := List.append_inj' heq rfl
      exact .inl ⟨before, after, f', rfl, hbefore⟩
  · rintro (⟨before, after, f', rfl, hbefore⟩ | ⟨rfl, rfl⟩)
    · exact ⟨before, after ++ [last], f', by simp, hbefore⟩
    · exact ⟨parts, [], f, rfl, h⟩

/-- If each part fills its slots where it stands, then after a text has been read, a slot holds a
value just if a part has filled it with that value at its place in the text. -/
theorem readParts_eq_ok {writes : ι → List Char → List (Slot × Int)}
    {sound : ι → List Char → Prop} {parts : List ι}
    (hstated : ∀ part ∈ parts, ∀ f cs f' rest, read part f cs = .ok (f', rest) →
      f.Adds (writes part cs) f' ∧ sound part cs)
    {raw rest : List Char} {f : Fields} (h : readParts read parts raw = .ok (f, rest)) :
  (∀ slot v, f slot = some v
      ↔ ∃ part cs, StandsAt read parts raw part cs ∧ (slot, v) ∈ writes part cs)
    ∧ ∀ part cs, StandsAt read parts raw part cs → sound part cs
  := by
  -- From the right, as a part reads what those before it have left.
  induction parts using List.reverseRecOn generalizing f rest with
  | nil =>
    cases h
    have hnone : ∀ part cs, ¬StandsAt read [] raw part cs := by
      rintro part cs ⟨before, after, f, heq, -⟩
      simp at heq
    simp [hnone, Fields.unfilled]
  | append_singleton parts last ih =>
    obtain ⟨f', rest', hbefore, hread⟩ := readParts_concat.1 h
    obtain ⟨hslots, hsound⟩ := ih (fun part hpart => hstated part (by simp [hpart])) hbefore
    obtain ⟨hadds, hsound'⟩ := hstated last (by simp) _ _ _ _ hread
    constructor
    · intro slot v
      rw [hadds, hslots]
      constructor
      · rintro (⟨part, cs, hpart, hwrites⟩ | hwrites)
        · exact ⟨part, cs, (standsAt_concat hbefore).2 (.inl hpart), hwrites⟩
        · exact ⟨last, rest', (standsAt_concat hbefore).2 (.inr ⟨rfl, rfl⟩), hwrites⟩
      · rintro ⟨part, cs, hpart, hwrites⟩
        obtain hpart | ⟨rfl, rfl⟩ := (standsAt_concat hbefore).1 hpart
        · exact .inl ⟨part, cs, hpart, hwrites⟩
        · exact .inr hwrites
    · intro part cs hpart
      obtain hpart | ⟨rfl, rfl⟩ := (standsAt_concat hbefore).1 hpart
      · exact hsound part cs hpart
      · exact hsound'

end parts

/-! ### Whole texts -/

/-- Reads the front of a text by a list of items. -/
def readItems (items : List Item) (cs : List Char) : Except TimeError (Fields × List Char) :=
  items.foldlM (fun (f, cs) item => item.read f cs) (Fields.unfilled, cs)

/-- A whole text is read up to its end. -/
theorem readItems_of_readFields {items : List Item} {cs : List Char} {f : Fields}
    (h : readFields items cs = .ok f) :
  readItems items cs = .ok (f, [])
  := by
  obtain ⟨⟨f', rest⟩, hread, h⟩ := bind_eq_ok.1 h
  cases rest with
  | nil =>
    cases h
    exact hread
  | cons c rest => cases h

/-- An item of a list stands before the part `cs` of the text that is read by the list. -/
def ReadsAt (items : List Item) (raw : List Char) (item : Item) (cs : List Char) : Prop :=
  ∃ before after f, items = before ++ item :: after ∧ readItems before raw = .ok (f, cs)

/-- When a text has been read, a slot holds a value just if an item has filled it with that value
at its place in the text, and what the items state there is plausible. -/
theorem readItems_eq_ok {items : List Item} (hitems : Item.dateTime ∉ items) {raw rest : List Char}
    {f : Fields} (h : readItems items raw = .ok (f, rest)) :
  (∀ slot v, f slot = some v
      ↔ ∃ item cs, ReadsAt items raw item cs ∧ (slot, v) ∈ item.writes cs)
    ∧ ∀ item cs, ReadsAt items raw item cs → item.Plausible cs
  := by
  apply readParts_eq_ok _ h
  intro item hitem f cs f' rest hread
  apply Item.stated_of_read _ hread
  rintro rfl
  exact hitems hitem

end LogFormat
