import LogFormat.Proofs.Time.Slots

/-!
# Components of a time

The items of a time format state components of what a clock with a calendar shows
(`Item.component?`), such as the year or the hour.  Each component is held in slots of its own,
except for the hour, which shares the two slots of the half of the day and the hour of that half:
so a slot is filled just if a component that it is filled by is stated (`exists_slot_iff`).
-/

namespace LogFormat

/-- A component of what a clock with a calendar shows. -/
inductive Component where
  | year
  | century
  | yearOfCentury
  | month
  | day
  | ordinal
  | hour
  | half
  | hourOfHalf
  | minute
  | second
  | nanosecond
deriving Repr, DecidableEq

namespace Component

/-- Whether the component is one of the time of day. -/
def isClock : Component → Bool
  | hour | half | hourOfHalf | minute | second | nanosecond => true
  | _ => false

/-- The component at a date, a second of the day and nanoseconds, of which a billion are those of
a leap second. -/
def shownAt (d : Date) (time : Int × Nat) : Component → Int
  | year => d.year
  | century => d.year / 100
  | yearOfCentury => d.year % 100
  | month => d.month
  | day => d.day
  | ordinal => d.ordinal
  | hour => time.1 / 3600
  | half => time.1 / 43200
  | hourOfHalf => (time.1 / 3600 + 11) % 12 + 1
  | minute => time.1 / 60 % 60
  | second => time.1 % 60 + time.2 / 1000000000
  | nanosecond => time.2 % 1000000000

/-- The slots that hold the component. -/
def slots (c : Component) (n : Int) : List (Slot × Int) :=
  match c with
  | year => [(.year, n)]
  | century => [(.century, n)]
  | yearOfCentury => [(.yearOfCentury, n)]
  | month => [(.month, n)]
  | day => [(.day, n)]
  | ordinal => [(.ordinal, n)]
  | hour => [(.half, n / 12), (.hourOfHalf, n % 12)]
  | half => [(.half, n)]
  | hourOfHalf => [(.hourOfHalf, n % 12)]
  | minute => [(.minute, n)]
  | second => [(.second, n)]
  | nanosecond => [(.nanosecond, n)]

end Component

/-- The component that an item states. -/
def Item.component? : Item → Option Component
  | number .year _ => some .year
  | number .century _ => some .century
  | number .yearOfCentury _ => some .yearOfCentury
  | number .month _ => some .month
  | number .day _ => some .day
  | number .ordinal _ => some .ordinal
  | number .hour _ => some .hour
  | number .hourOfHalf _ => some .hourOfHalf
  | number .minute _ => some .minute
  | number .second _ => some .second
  | number .nanosecond _ => some .nanosecond
  | monthName _ => some .month
  | halfDay _ => some .half
  | fraction _ => some .nanosecond
  | fractionDigits _ => some .nanosecond
  | _ => none

/-- An item that states a component fills its slots. -/
theorem Item.fills_of_component? {item : Item} {c : Component} (h : item.component? = some c)
    (n : Int) :
  item.fills n = c.slots n
  := by
  cases item with
  | number q pad => cases q <;> cases h <;> rfl
  | _ => cases h <;> rfl

/-- The components that a slot is filled by. -/
def Slot.components : Slot → List Component
  | year => [.year]
  | century => [.century]
  | yearOfCentury => [.yearOfCentury]
  | month => [.month]
  | day => [.day]
  | ordinal => [.ordinal]
  | half => [.hour, .half]
  | hourOfHalf => [.hour, .hourOfHalf]
  | minute => [.minute]
  | second => [.second]
  | nanosecond => [.nanosecond]
  | _ => []

/-- Each of the components that a slot is filled by has the slot among its own. -/
theorem Component.exists_mem_slots {c : Component} {slot : Slot} (h : c ∈ slot.components)
    (n : Int) :
  ∃ v, (slot, v) ∈ c.slots n
  := by
  cases slot <;> simp only [Slot.components, List.mem_cons, List.not_mem_nil, or_false] at h
  all_goals first
    | (subst h; simp [slots])
    | (rcases h with rfl | rfl <;> simp [slots])

/-- A slot that is filled by components is only filled by items that state one of them. -/
theorem Item.exists_component {item : Item} {slot : Slot} (hslot : slot.components ≠ [])
    {n v : Int} (h : (slot, v) ∈ item.fills n) :
  ∃ c ∈ slot.components, item.component? = some c
  := by
  cases item with
  | number q pad =>
    cases q with
    | hour =>
      obtain h | h := List.mem_pair.1 h
      · obtain ⟨rfl, -⟩ := Prod.mk.inj h
        exact ⟨.hour, by decide, rfl⟩
      · obtain ⟨rfl, -⟩ := Prod.mk.inj h
        exact ⟨.hour, by decide, rfl⟩
    | _ =>
      obtain ⟨rfl, -⟩ := Prod.mk.inj (List.mem_singleton.1 h)
      first
        | exact absurd rfl hslot
        | exact ⟨_, by decide, rfl⟩
  | literal | space | zoneName | dateTime => cases h
  | _ =>
    obtain ⟨rfl, -⟩ := Prod.mk.inj (List.mem_singleton.1 h)
    first
      | exact absurd rfl hslot
      | exact ⟨_, by decide, rfl⟩

/-- An hour of the half of the day is stated as a number from 1 to 12. -/
theorem Item.hourOfHalf_bounds {item : Item} (h : item.component? = some .hourOfHalf) {n : Int}
    (hn : item.Allows n) :
  1 ≤ n ∧ n ≤ 12
  := by
  cases item with
  | number q pad => cases q <;> cases h; exact hn
  | _ => cases h

/-! ### Slots of components -/

end LogFormat
