import LogFormat.Proofs.Pattern.Chain
import LogFormat.Proofs.Text.Separators

/-!
# Patterns that prefer their longest or their shortest texts

The walk along a line tries alternatives in order, which is not the order of their lengths.
The two orders agree for a pattern that is put together in one of these ways: the first of
two parts ends at the same place whatever the second does (`Prefers.seq`), or the texts of
the first of two alternatives are preferred to those of the second wherever both stand in a
line (`Prefers.either`).
-/

namespace LogFormat

/-- A number is preferred to itself. -/
theorem Preference.Favours.refl (prefer : Preference) (n : Nat) :
  prefer.Favours n n
  := by
  cases prefer
  · apply Nat.le_refl
  · apply Nat.le_refl

namespace Pattern

/-! ### The characters of a pattern -/

/-- All characters of the texts of the pattern are of the given kind. -/
def Over (p : Pattern) (P : Char → Prop) : Prop :=
  ∀ w ∈ p.language, ∀ c ∈ w, P c

section

variable {p q : Pattern} {P : Char → Prop} {s : CharSet}

theorem over_empty :
  empty.Over P
  := by
  intro w hw c hc
  rw [mem_language_empty.1 hw] at hc
  cases hc

theorem over_one (h : ∀ c, s.has c → P c) :
  (one s).Over P
  := by
  rintro _ ⟨c, rfl, hc⟩ d hd
  rw [List.mem_singleton.1 hd]
  apply h c hc

theorem over_many (h : ∀ c, s.has c → P c) (prefer : Preference) :
  (many s prefer).Over P
  := fun _ hw c hc => h c (hw c hc)

theorem Over.seq (hp : p.Over P) (hq : q.Over P) :
  (seq p q).Over P
  := by
  intro w hw c hc
  obtain ⟨u, hu, v, hv, rfl⟩ := mem_language_seq.1 hw
  rcases List.mem_append.1 hc with hc | hc
  · apply hp u hu c hc
  · apply hq v hv c hc

theorem Over.optional (h : p.Over P) :
  (optional .longest p).Over P
  := by
  intro w hw
  rcases mem_language_either.1 hw with hw | hw
  · apply h w hw
  · exact over_empty w hw

theorem Over.upTo (h : p.Over P) (n : Nat) :
  (upTo .longest p n).Over P
  := by
  induction n with
  | zero => exact over_empty
  | succ n ih => exact (h.seq ih).optional

end

/-- Every text of the pattern begins with a character of the given kind. -/
def Begins (p : Pattern) (P : Char → Prop) : Prop :=
  ∀ w ∈ p.language, ∃ c cs, w = c :: cs ∧ P c

theorem begins_one (s : CharSet) :
  (one s).Begins (s.has ·)
  := by
  rintro _ ⟨c, rfl, hc⟩
  exact ⟨c, [], rfl, hc⟩

theorem Begins.seq {p : Pattern} {P : Char → Prop} (h : p.Begins P) (q : Pattern) :
  (seq p q).Begins P
  := by
  intro w hw
  obtain ⟨u, hu, v, -, rfl⟩ := mem_language_seq.1 hw
  obtain ⟨c, cs, rfl, hc⟩ := h u hu
  exact ⟨c, cs ++ v, rfl, hc⟩

/-- A sequence begins as its first part does. -/
theorem Begins.sequence {p : Pattern} {P : Char → Prop} (h : p.Begins P)
    (parts : List Pattern) :
  (sequence (p :: parts)).Begins P
  := by
  intro w hw
  rw [language_sequence] at hw
  apply h.seq (chain parts) w hw

/-- Every text of the pattern has the character `c`, and before it only characters of the
given kind. -/
def Reaches (p : Pattern) (P : Char → Prop) (c : Char) : Prop :=
  ∀ w ∈ p.language, ∃ u v, w = u ++ c :: v ∧ ∀ a ∈ u, P a

theorem reaches_single {p : Pattern} {P : Char → Prop} (h : p.Over P) (c : Char) :
  (seq p (one (.single c))).Reaches P c
  := by
  intro w hw
  obtain ⟨u, hu, v, hv, rfl⟩ := mem_language_seq.1 hw
  rw [mem_language_single.1 hv]
  exact ⟨u, [], rfl, h u hu⟩

theorem Reaches.seq {p : Pattern} {P : Char → Prop} {c : Char} (h : p.Reaches P c)
    (q : Pattern) :
  (seq p q).Reaches P c
  := by
  intro w hw
  obtain ⟨w₁, hw₁, w₂, -, rfl⟩ := mem_language_seq.1 hw
  obtain ⟨u, v, rfl, hu⟩ := h w₁ hw₁
  exact ⟨u, v ++ w₂, List.append_assoc u (c :: v) w₂, hu⟩

/-- A sequence reaches a character if its first part does. -/
theorem Reaches.sequence {p : Pattern} {P : Char → Prop} {c : Char} (h : p.Reaches P c)
    (parts : List Pattern) :
  (sequence (p :: parts)).Reaches P c
  := by
  intro w hw
  rw [language_sequence] at hw
  apply h.seq (chain parts) w hw

/-! ### Delimited patterns -/

/-- The texts of a delimited pattern show where they end: none of them is the beginning of
another. -/
def Delimited (p : Pattern) : Prop :=
  ∀ ⦃u u' v v' : List Char⦄, u ∈ p.language → u' ∈ p.language → u ++ v = u' ++ v' → u = u'

theorem delimited_empty :
  empty.Delimited
  := by
  intro u u' v v' hu hu' _
  rw [mem_language_empty.1 hu, mem_language_empty.1 hu']

theorem delimited_one (s : CharSet) :
  (one s).Delimited
  := by
  rintro _ _ v v' ⟨c, rfl, -⟩ ⟨c', rfl, -⟩ h
  rw [(List.cons_eq_cons.1 h).1]

/-- Two delimited patterns one after the other are delimited. -/
theorem Delimited.seq {p q : Pattern} (hp : p.Delimited) (hq : q.Delimited) :
  (seq p q).Delimited
  := by
  intro _ _ w w' huv huv' h
  obtain ⟨u, hu, v, hv, rfl⟩ := mem_language_seq.1 huv
  obtain ⟨u', hu', v', hv', rfl⟩ := mem_language_seq.1 huv'
  rw [List.append_assoc, List.append_assoc] at h
  obtain rfl := hp hu hu' h
  rw [hq hv hv' (List.append_cancel_left h)]

/-- A fixed number of copies of a delimited pattern is delimited. -/
theorem Delimited.copies {p : Pattern} (hp : p.Delimited) (n : Nat) :
  (copies p n).Delimited
  := by
  induction n with
  | zero => exact delimited_empty
  | succ n ih => exact ih.seq hp

/-- A pattern is delimited by a character after it that none of its texts has. -/
theorem delimited_seq_single {p : Pattern} {c : Char} (h : p.Over (· ≠ c)) :
  (seq p (one (.single c))).Delimited
  := by
  intro _ _ v v' hwc hwc' heq
  obtain ⟨w, hw, _, hc, rfl⟩ := mem_language_seq.1 hwc
  obtain ⟨w', hw', _, hc', rfl⟩ := mem_language_seq.1 hwc'
  obtain rfl := mem_language_single.1 hc
  obtain rfl := mem_language_single.1 hc'
  rw [List.append_assoc, List.append_assoc] at heq
  have hmem : ∀ w ∈ p.language, c ∉ w := fun w hw hc => h w hw c hc rfl
  rw [(eq_of_not_mem_left (hmem w hw) (hmem w' hw') heq).1]

/-- From a place of a line, a delimited pattern leads to one place only. -/
theorem Delimited.eq_place {p : Pattern} (hp : p.Delimited) {text : Array Char} {i j k : Nat}
    (hij : i ≤ j) (hj : j ≤ text.size) (hik : i ≤ k) (hk : k ≤ text.size)
    (hu : between text i j ∈ p.language) (hv : between text i k ∈ p.language) :
  j = k
  := by
  have heq : between text i j = between text i k :=
    hp hu hv ((between_append_rest hij hj).trans (between_append_rest hik hk).symm)
  have hlength := congrArg List.length heq
  rw [length_between hj, length_between hk] at hlength
  omega

/-! ### Preferred texts of compound patterns -/

/-- A delimited pattern leaves nothing to prefer. -/
theorem Delimited.prefers {p : Pattern} (hp : p.Delimited) (prefer : Preference) :
  p.Prefers prefer
  := by
  intro text after i j hafter hj hij hw
  obtain ⟨hstop, hle, hword⟩ := follow_spec hafter ((mem_live hafter).2 ⟨j, hj, hij, hw⟩)
  rw [hp.eq_place hle (hafter _ hstop) hij (hafter j hj) hword hw]
  apply Preference.Favours.refl

/-- After a delimited part, the whole prefers what the last part prefers. -/
theorem Prefers.seq {p q : Pattern} {prefer : Preference} (hp : p.Delimited)
    (hq : q.Prefers prefer) :
  (seq p q).Prefers prefer
  := by
  intro text after i k hafter hk hik hw
  obtain ⟨j, hij, hjk, hu, hv⟩ := (between_mem_language_seq hik (hafter k hk)).1 hw
  have hafter' := live_le_size (p := q) hafter
  have hj : j ∈ q.live text after := (mem_live hafter).2 ⟨k, hk, hjk, hv⟩
  obtain ⟨hstop, hle, hu'⟩ := follow_spec hafter' ((mem_live hafter').2 ⟨j, hj, hij, hu⟩)
  have heq := hp.eq_place hle (hafter' _ hstop) hij (hafter' j hj) hu' hu
  rw [follow]
  simp only [heq]
  apply hq hafter hk hjk hv

/-- The texts of the first alternative are preferred to those of the second wherever both
can be taken from the same place of a line. -/
def Outranks (p q : Pattern) (prefer : Preference) : Prop :=
  ∀ ⦃u v w w' : List Char⦄, u ∈ p.language → v ∈ q.language → u ++ w = v ++ w' →
    prefer.Favours u.length v.length

/-- Alternatives prefer what both of them prefer, if the first outranks the second. -/
theorem Prefers.either {p q : Pattern} {prefer : Preference} (hp : p.Prefers prefer)
    (hq : q.Prefers prefer) (h : p.Outranks q prefer) :
  (either p q).Prefers prefer
  := by
  intro text after i j hafter hj hij hw
  rw [follow]
  split
  · next hlive =>
    rw [List.contains_iff_mem] at hlive
    rcases mem_language_either.1 hw with hw | hw
    · apply hp hafter hj hij hw
    · obtain ⟨hstop, hle, hu⟩ := follow_spec hafter hlive
      have hfavours := h hu hw ((between_append_rest hle (hafter _ hstop)).trans
        (between_append_rest hij (hafter j hj)).symm)
      rw [length_between (hafter _ hstop), length_between (hafter j hj)] at hfavours
      cases prefer <;> simp only [Preference.Favours] at hfavours ⊢ <;> omega
  · next hlive =>
    rcases mem_language_either.1 hw with hw | hw
    · apply absurd (List.contains_iff_mem.2 ((mem_live hafter).2 ⟨j, hj, hij, hw⟩)) hlive
    · apply hq hafter hj hij hw

/-- An alternative to nothing outranks it when longer texts are preferred. -/
theorem outranks_empty (p : Pattern) :
  p.Outranks empty .longest
  := by
  intro u v w w' _ hv _
  rw [mem_language_empty.1 hv]
  apply Nat.zero_le

/-- Alternatives that begin with different characters are never both possible. -/
theorem Begins.outranks {p q : Pattern} {P Q : Char → Prop} (hp : p.Begins P)
    (hq : q.Begins Q) (h : ∀ c, P c → ¬Q c) (prefer : Preference) :
  p.Outranks q prefer
  := by
  intro u v w w' hu hv heq
  obtain ⟨c, cs, rfl, hc⟩ := hp u hu
  obtain ⟨d, ds, rfl, hd⟩ := hq v hv
  obtain ⟨rfl, -⟩ := List.cons_eq_cons.1 heq
  apply absurd hd (h c hc)

/-- Alternatives that reach different characters first are never both possible. -/
theorem Reaches.outranks {p q : Pattern} {P : Char → Prop} {c d : Char}
    (hp : p.Reaches P c) (hq : q.Reaches P d) (hc : ¬P c) (hd : ¬P d) (hne : c ≠ d)
    (prefer : Preference) :
  p.Outranks q prefer
  := by
  intro u v w w' hu hv heq
  obtain ⟨a, r, rfl, ha⟩ := hp u hu
  obtain ⟨b, r', rfl, hb⟩ := hq v hv
  rw [List.append_assoc, List.append_assoc] at heq
  apply absurd (eq_of_first ha hb hc hd heq) hne

/-- A pattern that may be left out prefers its longest texts if the pattern does. -/
theorem Prefers.optional {p : Pattern} (h : p.Prefers .longest) :
  (optional .longest p).Prefers .longest
  := Prefers.either h (delimited_empty.prefers .longest) (outranks_empty p)

/-- Up to so many copies of a delimited pattern prefer their longest texts. -/
theorem Delimited.prefers_upTo {p : Pattern} (hp : p.Delimited) (n : Nat) :
  (upTo .longest p n).Prefers .longest
  := by
  induction n with
  | zero => exact delimited_empty.prefers .longest
  | succ n ih => exact Prefers.optional (Prefers.seq hp ih)

end Pattern

end LogFormat
