import LogFormat.Proofs.Time.LocalClock

/-!
# Steps of reading

A full date and time is an item that is read in parts: a date, a separator, a time of day and a
zone.  So the items of a time format are read in steps (`Item.read_eq_steps`), and when a text has
been read, its slots hold exactly what the steps have stated, each at its place
(`readSteps_eq_ok`).
-/

namespace LogFormat

/-! ### Steps -/

/-- One step of reading: an item that is no composite, or the separator or the zone of a full date
and time. -/
inductive Step where
  | simple (item : Item)
  | separator
  | zone
deriving Repr, DecidableEq

/-- Items with white space allowed before literal text. -/
def Item.spaced (items : List Item) : List Item :=
  items.flatMap fun
    | literal text => [space [], literal text]
    | item => [item]

/-- The steps in which an item is read. -/
def Item.steps : Item → List Step
  | dateTime => (spaced fullDate).map .simple ++ .separator
      :: ((spaced clockTime ++ [fraction none]).map .simple ++ [.zone])
  | item => [.simple item]

namespace Step

/-- Reads the front of a text. -/
def read (step : Step) (f : Fields) (cs : List Char) : Except TimeError (Fields × List Char) :=
  match step with
  | simple item => item.readSimple f cs
  | separator => do
    let ((), rest) ← Item.readSeparator cs
    .ok (f, rest)
  | zone => do
    let (n, rest) ← Item.readZone (trimStart cs)
    .ok (← f.put .offset n, rest)

/-- The number that a step states at the front of a text. -/
def value? (step : Step) (cs : List Char) : Option Int :=
  match step with
  | simple item => item.value? cs
  | separator => none
  | zone => (Item.readZone (trimStart cs)).toOption.map (·.1)

/-- The slots that a step fills with the number that it states. -/
def fills (step : Step) (n : Int) : List (Slot × Int) :=
  match step with
  | simple item => item.fills n
  | separator => []
  | zone => [(.offset, n)]

/-- The numbers that a step can state. -/
def Allows (step : Step) (n : Int) : Prop :=
  match step with
  | simple item => item.Allows n
  | _ => True

/-- The component that a step states. -/
def component? : Step → Option Component
  | simple item => item.component?
  | _ => none

/-- Whether a step reads an offset from UTC. -/
def isOffset : Step → Bool
  | simple (.offset _) => true
  | simple .looseOffset => true
  | zone => true
  | _ => false

/-- The slots that a step fills when it reads the front of a text. -/
def writes (step : Step) (cs : List Char) : List (Slot × Int) :=
  (step.value? cs).elim [] step.fills

end Step

/-- Simple items are read as steps. -/
theorem readAllSimple_eq_steps (items : List Item) (f : Fields) (cs : List Char) :
  Item.readAllSimple items f cs
    = (items.map Step.simple).foldlM (fun (f, cs) step => step.read f cs) (f, cs)
  := by
  rw [List.foldlM_map]
  rfl

/-- An item that is no composite is one step. -/
theorem Item.steps_of_ne {item : Item} (h : item ≠ dateTime) :
  item.steps = [.simple item]
  := by
  rw [steps]
  exact h

/-- An item that is no composite is read as a simple one. -/
theorem Item.read_of_ne {item : Item} (h : item ≠ dateTime) (f : Fields) (cs : List Char) :
  item.read f cs = item.readSimple f cs
  := by
  rw [read]
  exact h

/-- An item is read in its steps. -/
theorem Item.read_eq_steps (item : Item) (f : Fields) (cs : List Char) :
  item.read f cs = item.steps.foldlM (fun (f, cs) step => step.read f cs) (f, cs)
  := by
  by_cases hitem : item = dateTime
  · subst hitem
    have hdate := readAllSimple_eq_steps (spaced fullDate) f cs
    rw [steps, List.foldlM_append, ← hdate]
    simp only [List.foldlM_cons, List.foldlM_append, List.foldlM_nil, Step.read, bind_assoc,
      bind_pure]
    rfl
  · rw [steps_of_ne hitem, read_of_ne hitem]
    simp only [List.foldlM_cons, List.foldlM_nil, bind_pure, Step.read]

/-- Items are read in their steps. -/
theorem readItems_eq_steps (items : List Item) (cs : List Char) :
  readItems items cs = readParts Step.read (items.flatMap Item.steps) cs
  := by
  rw [readItems, readParts]
  generalize Fields.unfilled = f
  induction items generalizing f cs with
  | nil => rfl
  | cons item items ih =>
    rw [List.flatMap_cons, List.foldlM_append, ← item.read_eq_steps, List.foldlM_cons]
    congr 1
    funext state
    exact ih state.2 state.1

/-! ### What the steps state -/

namespace Step

/-- A step fills the slots for the number that it states. -/
theorem mem_writes {step : Step} {cs : List Char} {slot : Slot} {v : Int} :
  (slot, v) ∈ step.writes cs ↔ ∃ n, step.value? cs = some n ∧ (slot, v) ∈ step.fills n
  := by
  rw [writes]
  cases step.value? cs <;> simp

/-- What a step states where it can be read. -/
def Plausible (step : Step) (cs : List Char) : Prop :=
  match step with
  | simple item => item.Plausible cs
  | _ => True

/-- A number that is plausible where it stands is one that there can be. -/
theorem Plausible.allows {step : Step} {cs : List Char} {n : Int} (h : step.Plausible cs)
    (hvalue : step.value? cs = some n) :
  step.Allows n
  := by
  cases step with
  | simple item =>
    have hitem : item.value? cs = some n := hvalue
    rw [Plausible, Item.Plausible, hitem] at h
    exact h
  | separator | zone => trivial

/-- A step that reads the front of a text fills its slots with the number that it states, if it
states one that there can be. -/
theorem stated_of_read {step : Step} {f f' : Fields} {cs rest : List Char}
    (h : step.read f cs = .ok (f', rest)) :
  f.Adds (step.writes cs) f' ∧ step.Plausible cs
  := by
  cases step with
  | simple item =>
    by_cases hitem : item = .dateTime
    · subst hitem
      cases h
      exact ⟨Fields.adds_nil f, .inl fun _ => rfl⟩
    · have hread : item.read f cs = .ok (f', rest) := (Item.read_of_ne hitem f cs).trans h
      exact Item.stated_of_read hitem hread
  | separator =>
    obtain ⟨⟨⟨⟩, rest'⟩, -, h⟩ := bind_eq_ok.1 h
    cases h
    exact ⟨Fields.adds_nil f, trivial⟩
  | zone =>
    obtain ⟨n, hread, hput⟩ := Item.reading_eq_ok (f.put .offset) h
    have hvalue : zone.value? cs = some n := by rw [value?, hread]; rfl
    refine ⟨?_, trivial⟩
    rw [writes, hvalue]
    exact Fields.adds_of_put hput

/-- A number that a step can state fills the slots with values that they can hold. -/
theorem slot_allows {step : Step} {slot : Slot} {n v : Int} (hn : step.Allows n)
    (h : (slot, v) ∈ step.fills n) :
  slot.Allows v
  := by
  cases step with
  | simple item => exact item.slot_allows hn h
  | separator => cases h
  | zone =>
    obtain ⟨rfl, -⟩ := Prod.mk.inj (List.mem_singleton.1 h)
    trivial

/-- A step that states a component fills its slots. -/
theorem fills_of_component? {step : Step} {c : Component} (h : step.component? = some c)
    (n : Int) :
  step.fills n = c.slots n
  := by
  cases step with
  | simple item => exact item.fills_of_component? h n
  | separator | zone => cases h

/-- A slot that is filled by components is only filled by steps that state one of them. -/
theorem exists_component {step : Step} {slot : Slot} (hslot : slot.components ≠ [])
    {n v : Int} (h : (slot, v) ∈ step.fills n) :
  ∃ c ∈ slot.components, step.component? = some c
  := by
  cases step with
  | simple item => exact item.exists_component hslot h
  | separator => cases h
  | zone =>
    obtain ⟨rfl, -⟩ := Prod.mk.inj (List.mem_singleton.1 h)
    exact absurd rfl hslot

/-- An hour of the half of the day is stated as a number from 1 to 12. -/
theorem hourOfHalf_bounds {step : Step} (h : step.component? = some .hourOfHalf) {n : Int}
    (hn : step.Allows n) :
  1 ≤ n ∧ n ≤ 12
  := by
  cases step with
  | simple item => exact Item.hourOfHalf_bounds h hn
  | separator | zone => cases h

/-- The slot of the offset is filled by the steps that read an offset, with the number that they
state. -/
theorem mem_fills_offset {step : Step} {n v : Int} :
  (Slot.offset, v) ∈ step.fills n ↔ step.isOffset ∧ v = n
  := by
  cases step with
  | simple item =>
    cases item with
    | number q pad => cases q <;> simp [fills, Item.fills, Quantity.fills, isOffset]
    | _ => simp [fills, Item.fills, isOffset]
  | _ => simp [fills, isOffset]

/-- A full date and time does not state the seconds since 1970, and another item only if it is one
for them. -/
theorem someShows_epoch {items : List Item} {step : Step} {n v : Int}
    (hstep : step ∈ items.flatMap Item.steps) (h : (Slot.epochSeconds, v) ∈ step.fills n) :
  Item.someShows items .epoch
  := by
  obtain ⟨item, hitem, hstep⟩ := List.mem_flatMap.1 hstep
  by_cases hdateTime : item = .dateTime
  · subst hdateTime
    have hnone : ∀ step ∈ Item.dateTime.steps, (Slot.epochSeconds, v) ∉ step.fills n := by
      simp [Item.steps, Item.spaced, Item.fullDate, Item.clockTime, Item.zeroed, Item.char, fills,
        Item.fills, Quantity.fills]
    exact absurd h (hnone step hstep)
  · rw [Item.steps_of_ne hdateTime] at hstep
    obtain rfl := List.mem_singleton.1 hstep
    have hfills : (Slot.epochSeconds, v) ∈ item.fills n := h
    exact Item.someShows_epoch hitem hfills

end Step

section reading

variable {steps : List Step} {raw rest : List Char} {f : Fields}

/-- When a text has been read, a slot holds a value just if a step has filled it with that value
at its place in the text, and what the steps state there is plausible. -/
theorem readSteps_eq_ok (h : readParts Step.read steps raw = .ok (f, rest)) :
  (∀ slot v, f slot = some v
      ↔ ∃ step cs, StandsAt Step.read steps raw step cs ∧ (slot, v) ∈ step.writes cs)
    ∧ ∀ step cs, StandsAt Step.read steps raw step cs → step.Plausible cs
  := by
  apply readParts_eq_ok _ h
  intro step _ f cs f' rest hread
  exact step.stated_of_read hread

/-- A text that has been read leaves the slots in their bounds. -/
theorem bounded_of_readSteps (h : readParts Step.read steps raw = .ok (f, rest)) :
  f.Bounded
  := by
  obtain ⟨hslots, hstated⟩ := readSteps_eq_ok h
  intro slot v hv
  obtain ⟨step, cs, hstep, hwrites⟩ := (hslots slot v).1 hv
  obtain ⟨n, hvalue, hfills⟩ := Step.mem_writes.1 hwrites
  exact step.slot_allows ((hstated step cs hstep).allows hvalue) hfills

/-- A number that a step states is in the slots of the step. -/
theorem slots_of_value? (h : readParts Step.read steps raw = .ok (f, rest)) {step : Step}
    {cs : List Char} (hstep : StandsAt Step.read steps raw step cs) {n : Int}
    (hvalue : step.value? cs = some n) :
  ∀ slot v, (slot, v) ∈ step.fills n → f slot = some v
  := by
  intro slot v hfills
  exact ((readSteps_eq_ok h).1 slot v).2 ⟨step, cs, hstep, Step.mem_writes.2 ⟨n, hvalue, hfills⟩⟩

/-- The slot of the offset holds what some step has read as an offset. -/
theorem exists_offset (h : readParts Step.read steps raw = .ok (f, rest)) {n : Int}
    (hoffset : f .offset = some n) :
  ∃ step cs, StandsAt Step.read steps raw step cs ∧ step.isOffset ∧ step.value? cs = some n
  := by
  obtain ⟨step, cs, hstep, hwrites⟩ := ((readSteps_eq_ok h).1 _ n).1 hoffset
  obtain ⟨m, hvalue, hfills⟩ := Step.mem_writes.1 hwrites
  obtain ⟨hisOffset, rfl⟩ := Step.mem_fills_offset.1 hfills
  exact ⟨step, cs, hstep, hisOffset, hvalue⟩

end reading

/-- A text whose items are not for the seconds since 1970 does not state them. -/
theorem epochSeconds_of_readSteps {items : List Item} (hepoch : Item.someShows items .epoch = false)
    {raw rest : List Char} {f : Fields}
    (h : readParts Step.read (items.flatMap Item.steps) raw = .ok (f, rest)) :
  f .epochSeconds = none
  := by
  rw [Option.eq_none_iff_forall_ne_some]
  intro v hv
  obtain ⟨step, cs, hstep, hwrites⟩ := ((readSteps_eq_ok h).1 _ v).1 hv
  obtain ⟨n, -, hfills⟩ := Step.mem_writes.1 hwrites
  have hshows := Step.someShows_epoch (mem_of_standsAt hstep) hfills
  rw [hepoch] at hshows
  cases hshows

end LogFormat
