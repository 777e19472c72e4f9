import LogFormat.Proofs.Time.Samples

/-!
# Times of day that every text states

A time format has texts that state a time of day just if all its texts do, since only a part of a
second can be left out (`Item.showClock`).  If the slots of some text determine a time of day, the
items show one (`Item.showClock_of_time`); and if they do, the slots of the text at the first
instant of 1970 determine one (`Item.exists_time_of_showClock`).
-/

namespace LogFormat

/-! ### Steps -/

namespace Step

/-- Whether the step states a number in every text; only a part of a second with a point can be
left out. -/
def certain : Step → Bool
  | simple (.fraction _) => false
  | _ => true

/-- Only a step for a part of a second can leave it out. -/
theorem certain_of_component? {step : Step} {c : Component} (h : step.component? = some c)
    (hc : c ≠ .nanosecond) :
  step.certain
  := by
  cases step with
  | simple item =>
    cases item with
    | fraction p => exact absurd (Option.some.inj h).symm hc
    | _ => rfl
  | separator | zone => rfl

/-- A step that always states a number for a component does so where it stands. -/
theorem exists_value? {step : Step} {c : Component} {cs : List Char} (h : step.Plausible cs)
    (hcomponent : step.component? = some c) (hcertain : step.certain) :
  ∃ n, step.value? cs = some n
  := by
  cases hvalue : step.value? cs with
  | some n => exact ⟨n, rfl⟩
  | none =>
    cases step with
    | simple item =>
      have hitem : item.value? cs = none := hvalue
      rw [Plausible, Item.Plausible, hitem] at h
      obtain hsilent | ⟨p, rfl, -⟩ := h
      · have hslots := item.fills_of_component? hcomponent 0
        rw [hsilent] at hslots
        cases c <;> cases hslots
      · cases hcertain
    | separator | zone => cases hcomponent

/-- The slots of a step that always states a component are those of the component. -/
theorem slots_of_component? {step : Step} {c : Component} (h : step.component? = some c)
    (hcertain : step.certain) :
  step.slots = (c.slots 0).map (·.1)
  := by
  cases step with
  | simple item =>
    have hslots : item.slots = (item.fills 0).map (·.1) := by
      cases item with
      | fraction p => cases hcertain
      | _ => rfl
    rw [slots, hslots, item.fills_of_component? h]
  | separator | zone => cases h

/-- A slot of a component is only filled by steps that always state a component. -/
theorem exists_component_of_mem_slots {step : Step} {slot : Slot} (hslot : slot.components ≠ [])
    (h : slot ∈ step.slots) :
  ∃ c ∈ slot.components, step.component? = some c ∧ step.certain
  := by
  cases step with
  | simple item =>
    have hcertain : (simple item).certain := by
      cases item with
      | fraction p => cases h
      | _ => rfl
    have hfills : ∃ v, (slot, v) ∈ item.fills 0 := by
      cases item with
      | fraction p => cases h
      | _ =>
        obtain ⟨⟨_, v⟩, hmem, rfl⟩ := List.mem_map.1 h
        exact ⟨v, hmem⟩
    obtain ⟨v, hfills⟩ := hfills
    obtain ⟨c, hc, hcomponent⟩ := item.exists_component hslot hfills
    exact ⟨c, hc, hcomponent, hcertain⟩
  | separator => cases h
  | zone =>
    obtain rfl := List.mem_singleton.1 h
    exact absurd rfl hslot

end Step

namespace Item

/-- Whether every text of the items states a component. -/
def alwaysState (items : List Item) (c : Component) : Bool :=
  (items.flatMap steps).any fun step => step.certain && step.component? == some c

/-- Whether every text of the items states a time of day: the hour, or the half of the day and the
hour of that half; the minute; and the second if it states a part of it. -/
def showClock (items : List Item) : Bool :=
  let states := alwaysState items
  (states .hour || states .half && states .hourOfHalf) && states .minute
    && (!states .nanosecond || states .second)

theorem alwaysState_iff {items : List Item} {c : Component} :
  alwaysState items c
    ↔ ∃ step ∈ items.flatMap steps, step.certain ∧ step.component? = some c
  := by
  simp only [alwaysState, List.any_eq_true, Bool.and_eq_true, beq_iff_eq]

theorem showClock_iff {items : List Item} :
  showClock items
    ↔ (alwaysState items .hour ∨ alwaysState items .half ∧ alwaysState items .hourOfHalf)
      ∧ alwaysState items .minute
      ∧ (alwaysState items .nanosecond → alwaysState items .second)
  := by
  simp only [showClock, Bool.and_eq_true, Bool.or_eq_true, Bool.not_eq_true', ← Bool.not_eq_true,
    imp_iff_not_or, and_assoc]

section reading

variable {items : List Item} {raw rest : List Char} {f : Fields}

/-- A slot of the time of day that holds no part of a second is filled by a component that every
text states. -/
theorem exists_alwaysState (h : readParts Step.read (items.flatMap steps) raw = .ok (f, rest))
    {slot : Slot} (hslot : slot.components ≠ []) (hnanos : .nanosecond ∉ slot.components)
    (hfilled : ∃ v, f slot = some v) :
  ∃ c ∈ slot.components, alwaysState items c
  := by
  obtain ⟨v, hv⟩ := hfilled
  obtain ⟨step, cs, hstep, hwrites⟩ := ((readSteps_eq_ok h).1 slot v).1 hv
  obtain ⟨n, -, hfills⟩ := Step.mem_writes.1 hwrites
  obtain ⟨c, hc, hcomponent⟩ := step.exists_component hslot hfills
  have hcertain := Step.certain_of_component? hcomponent fun heq => hnanos (heq ▸ hc)
  exact ⟨c, hc, alwaysState_iff.2 ⟨step, mem_of_standsAt hstep, hcertain, hcomponent⟩⟩

/-- The slots of a component that every text states are filled. -/
theorem filled_of_alwaysState
    (h : readParts Step.read (items.flatMap steps) raw = .ok (f, rest)) {c : Component}
    (hc : alwaysState items c) :
  ∃ n, ∀ slot v, (slot, v) ∈ c.slots n → f slot = some v
  := by
  obtain ⟨step, hstep, hcertain, hcomponent⟩ := alwaysState_iff.1 hc
  obtain ⟨cs, hstands⟩ := exists_standsAt h hstep
  obtain ⟨n, hvalue⟩ :=
    Step.exists_value? ((readSteps_eq_ok h).2 step cs hstands) hcomponent hcertain
  have hslots := slots_of_value? h hstands hvalue
  rw [Step.fills_of_component? hcomponent] at hslots
  exact ⟨n, hslots⟩

/-- If the slots of a text determine a time of day, every text states one. -/
theorem showClock_of_time (h : readParts Step.read (items.flatMap steps) raw = .ok (f, rest))
    (htime : ∃ time, f.time = .ok time) :
  showClock items
  := by
  obtain ⟨⟨hhalf, hhour⟩, hminute, hsecond⟩ := Fields.exists_time_iff.1 htime
  have hhalf := exists_alwaysState h (by decide) (by decide) hhalf
  have hhour := exists_alwaysState h (by decide) (by decide) hhour
  have hminute := exists_alwaysState h (by decide) (by decide) hminute
  have hsecond : alwaysState items .nanosecond → alwaysState items .second := by
    intro hnanos
    obtain ⟨n, hslots⟩ := filled_of_alwaysState h hnanos
    have hfilled := hsecond ⟨n, hslots _ _ (List.mem_singleton_self _)⟩
    simpa [Slot.components] using exists_alwaysState h (by decide) (by decide) hfilled
  simp only [Slot.components, List.mem_cons, List.not_mem_nil, or_false, exists_eq_or_imp,
    exists_eq_left] at hhalf hhour hminute
  rw [showClock_iff, or_and_left]
  exact ⟨⟨hhalf, hhour⟩, hminute, hsecond⟩

end reading

/-- If every text states a time of day, the slots of the text at the first instant of 1970 determine
one. -/
theorem exists_time_of_showClock {items : List Item} {f : Fields}
    (hslots : f.Filled ((items.flatMap Item.steps).flatMap Step.slots))
    (h : showClock items) :
  ∃ time, f.time = .ok time
  := by
  have hfilled : ∀ {c : Component} {slot : Slot}, alwaysState items c →
      slot ∈ (c.slots 0).map (·.1) → ∃ v, f slot = some v := by
    intro c slot hc hslot
    obtain ⟨step, hstep, hcertain, hcomponent⟩ := alwaysState_iff.1 hc
    rw [hslots slot, List.mem_flatMap]
    refine ⟨step, hstep, ?_⟩
    rwa [Step.slots_of_component? hcomponent hcertain]
  obtain ⟨hhour, hminute, hsecond⟩ := showClock_iff.1 h
  rw [Fields.exists_time_iff]
  refine ⟨?_, hfilled hminute (by decide), ?_⟩
  · obtain hhour | ⟨hhalf, hhour⟩ := hhour
    · exact ⟨hfilled hhour (by decide), hfilled hhour (by decide)⟩
    · exact ⟨hfilled hhalf (by decide), hfilled hhour (by decide)⟩
  · intro hnanos
    obtain ⟨step, hstep, hslot⟩ := List.mem_flatMap.1 ((hslots _).1 hnanos)
    obtain ⟨c, hc, hcomponent, hcertain⟩ :=
      Step.exists_component_of_mem_slots (by decide) hslot
    obtain rfl := List.mem_singleton.1 hc
    exact hfilled (hsecond (alwaysState_iff.2 ⟨step, hstep, hcertain, hcomponent⟩)) (by decide)

end Item

end LogFormat
