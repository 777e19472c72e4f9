import LogFormat.Directive.Word
import LogFormat.Proofs.Text.Decimal
import Mathlib

/-!
# The grammar of directive words

`Directive.text` writes a directive: `%`, the status filter with an optional `!`, the
position sign, the parameter in braces, and the key.  What is read from the front of a text
is what has been written there (`read?_eq_some_iff`).  So no directive word is the beginning
of another, and none is written for two directives.
-/

namespace LogFormat.Directive

/-! ### The written form -/

/-- The further numbers of a filter, each after a comma. -/
def moreStatusesText (ns : List Nat) : List Char :=
  ns.flatMap fun n => ',' :: padded 3 n

/-- The filter: three digits for each number, with commas between them, and `!` before them
if it is inverted.  Without numbers there is no filter. -/
def filterText (inverse : Bool) : List Nat → List Char
  | [] => []
  | n :: ns =>
    (if inverse then ['!'] else []) ++ padded 3 n ++ moreStatusesText ns

/-- The position sign, if there is one. -/
def positionText : Option Position → List Char
  | none => []
  | some .first => ['<']
  | some .last => ['>']

/-- The parameter in braces, if there is one. -/
def parameterText : Option String → List Char
  | none => []
  | some p => '\x7b' :: p.toList ++ ['\x7d']

/-- What follows the `%` of a directive word. -/
def body (d : Directive) : List Char :=
  filterText d.inverse d.statuses ++ positionText d.position ++ parameterText d.parameter
    ++ [d.key]

/-- The directive word. -/
def text (d : Directive) : List Char :=
  '%' :: d.body

/-- The directive can be written: its numbers have at most three digits, only a filter is
inverted, a parameter is neither empty nor contains a closing brace, and the key is a letter
or `%`. -/
structure Valid (d : Directive) : Prop where
  statuses_lt : ∀ n ∈ d.statuses, n < 1000
  inverse_filter : d.inverse → d.statuses ≠ []
  parameter_ne : ∀ p ∈ d.parameter, p.toList ≠ [] ∧ '\x7d' ∉ p.toList
  isKey_key : isKey d.key

/-! ### Numbers -/

/-- A status number is written with three digits. -/
theorem exists_padded_three {n : Nat} (h : n < 1000) :
  ∃ a b c, padded 3 n = [a, b, c] ∧ (a.isDigit && b.isDigit && c.isDigit)
    ∧ digitsValue [a, b, c] = n
  := by
  have hlength : (padded 3 n).length = 3 := length_padded (by decide) h
  obtain ⟨a, b, c, hpadded⟩ := List.length_eq_three.1 hlength
  have hdigits : ∀ d ∈ [a, b, c], d.isDigit := by
    rw [← hpadded]
    exact fun _ => isDigit_of_mem_padded
  simp only [List.forall_mem_cons] at hdigits
  refine ⟨a, b, c, hpadded, by simp [hdigits], ?_⟩
  rw [← hpadded, digitsValue_padded]

/-- Three digits are the written form of a status number. -/
theorem eq_padded_of_isDigit {a b c : Char} (h : a.isDigit && b.isDigit && c.isDigit) :
  digitsValue [a, b, c] < 1000 ∧ [a, b, c] = padded 3 (digitsValue [a, b, c])
  := by
  simp only [Bool.and_eq_true] at h
  have hdigits : ∀ d ∈ [a, b, c], d.isDigit := by simp [h]
  constructor
  · simpa using digitsValue_lt (List.all_eq_true.2 hdigits)
  · apply (padded_digitsValue hdigits (by simp)).symm

/-- A status number is read from its digits. -/
theorem readStatus?_padded {n : Nat} (h : n < 1000) (rest : List Char) :
  readStatus? (padded 3 n ++ rest) = some (n, rest)
  := by
  obtain ⟨a, b, c, hpadded, hdigits, hvalue⟩ := exists_padded_three h
  rw [hpadded]
  simp only [List.cons_append, List.nil_append, readStatus?, if_pos hdigits, hvalue]

/-- A status number that is read has been written there. -/
theorem eq_of_readStatus? {cs rest : List Char} {n : Nat}
    (h : readStatus? cs = some (n, rest)) :
  n < 1000 ∧ cs = padded 3 n ++ rest
  := by
  unfold readStatus? at h
  split at h
  · next a b c rest' =>
    split at h
    · next hdigits =>
      cases h
      obtain ⟨hlt, hpadded⟩ := eq_padded_of_isDigit hdigits
      rw [← hpadded]
      exact ⟨hlt, rfl⟩
    · cases h
  · cases h

/-- The further numbers are read from their digits, if no comma follows. -/
theorem readStatuses_moreStatusesText {ns : List Nat} (h : ∀ n ∈ ns, n < 1000)
    {rest : List Char} (hrest : rest.head? ≠ some ',') :
  readStatuses (moreStatusesText ns ++ rest) = (ns, rest)
  := by
  induction ns with
  | nil =>
    rw [moreStatusesText, List.flatMap_nil, List.nil_append, readStatuses]
    rintro a b c cs rfl
    apply hrest rfl
  | cons n ns ih =>
    obtain ⟨a, b, c, hpadded, hdigits, hvalue⟩ := exists_padded_three (h n List.mem_cons_self)
    have ih := ih fun n hn => h n (List.mem_cons_of_mem _ hn)
    rw [moreStatusesText, List.flatMap_cons, ← moreStatusesText, hpadded]
    simp only [List.cons_append, List.nil_append, readStatuses, if_pos hdigits, ih, hvalue]

/-- Further numbers that are read have been written there. -/
theorem eq_of_readStatuses (cs : List Char) :
  (∀ n ∈ (readStatuses cs).1, n < 1000)
    ∧ cs = moreStatusesText (readStatuses cs).1 ++ (readStatuses cs).2
  := by
  fun_induction readStatuses cs with
  | case1 a b c rest hdigits statuses rest' heq ih =>
    obtain ⟨hlt, hpadded⟩ := eq_padded_of_isDigit hdigits
    rw [heq] at ih
    refine ⟨List.forall_mem_cons.2 ⟨hlt, ih.1⟩, ?_⟩
    rw [moreStatusesText, List.flatMap_cons, ← moreStatusesText, ← hpadded, ih.2]
    simp
  | case2 => simp [moreStatusesText]
  | case3 => simp [moreStatusesText]

/-! ### The parts of a directive word -/

/-- A filter without `!` is read from its written form. -/
theorem readFilter?_filterText {n : Nat} {ns : List Nat} (h : ∀ m ∈ n :: ns, m < 1000)
    {rest : List Char} (hrest : rest.head? ≠ some ',') :
  readFilter? (padded 3 n ++ moreStatusesText ns ++ rest) = some (n :: ns, rest)
  := by
  obtain ⟨hn, hns⟩ := List.forall_mem_cons.1 h
  rw [readFilter?, List.append_assoc, readStatus?_padded hn, Option.map_some]
  simp only [readStatuses_moreStatusesText hns hrest]

/-- Where no digit stands there is no filter. -/
theorem readFilter?_eq_none {c : Char} {cs : List Char} (hc : ¬c.isDigit) :
  readFilter? (c :: cs) = none
  := by
  have hstatus : readStatus? (c :: cs) = none := by
    cases h : readStatus? (c :: cs) with
    | none => rfl
    | some found =>
      obtain ⟨hlt, hcs⟩ := eq_of_readStatus? h
      obtain ⟨a, b, d, hpadded, hdigits, -⟩ := exists_padded_three hlt
      rw [hpadded] at hcs
      cases hcs
      simp [hc] at hdigits
  rw [readFilter?, hstatus]
  rfl

/-- A filter that is read has been written there. -/
theorem eq_of_readFilter? {cs rest : List Char} {statuses : List Nat}
    (h : readFilter? cs = some (statuses, rest)) :
  (∀ n ∈ statuses, n < 1000) ∧ statuses ≠ [] ∧ cs = filterText false statuses ++ rest
  := by
  obtain ⟨⟨n, ds⟩, hn, heq⟩ := Option.map_eq_some_iff.1 h
  obtain ⟨hlt, rfl⟩ := eq_of_readStatus? hn
  obtain ⟨hall, hds⟩ := eq_of_readStatuses ds
  cases heq
  refine ⟨List.forall_mem_cons.2 ⟨hlt, hall⟩, by simp, ?_⟩
  rw [filterText, List.append_assoc, ← hds]
  simp

/-- A character that can follow a filter. -/
def EndsFilter (c : Char) : Prop :=
  c ≠ ',' ∧ c ≠ '!' ∧ ¬c.isDigit

/-- The filter is read from its written form, which may be nothing. -/
theorem readCondition_filterText {inverse : Bool} {statuses : List Nat}
    (h : ∀ n ∈ statuses, n < 1000) (hinverse : inverse → statuses ≠ []) {c : Char}
    (hc : EndsFilter c) (cs : List Char) :
  readCondition (filterText inverse statuses ++ c :: cs) = ((inverse, statuses), c :: cs)
  := by
  obtain ⟨hcomma, hmark, hdigit⟩ := hc
  cases statuses with
  | nil =>
    obtain rfl : inverse = false := by simpa using hinverse
    rw [filterText, List.nil_append, readCondition]
    · rw [readFilter?_eq_none hdigit]
    · rintro ds heq
      apply hmark (List.cons_eq_cons.1 heq).1
  | cons n ns =>
    have hfollow : (c :: cs).head? ≠ some ',' := by simpa using hcomma
    have hread := readFilter?_filterText h hfollow
    cases inverse with
    | true =>
      simp only [filterText, if_true, List.cons_append, List.nil_append, readCondition, hread]
    | false =>
      obtain ⟨a, b, d, hpadded, hdigits, -⟩ := exists_padded_three (h n List.mem_cons_self)
      simp only [filterText, Bool.false_eq_true, if_false, List.nil_append]
      rw [readCondition]
      · rw [hread]
      · rw [hpadded]
        rintro ds heq
        cases heq
        simp at hdigits

/-- The filter that is read has been written there. -/
theorem eq_of_readCondition (cs : List Char) :
  (∀ n ∈ (readCondition cs).1.2, n < 1000)
    ∧ ((readCondition cs).1.1 → (readCondition cs).1.2 ≠ [])
    ∧ cs = filterText (readCondition cs).1.1 (readCondition cs).1.2 ++ (readCondition cs).2
  := by
  unfold readCondition
  split
  · next ds =>
    split
    · next statuses rest h =>
      obtain ⟨hlt, hne, rfl⟩ := eq_of_readFilter? h
      refine ⟨hlt, fun _ => hne, ?_⟩
      cases statuses with
      | nil => exact absurd rfl hne
      | cons n ns => simp [filterText]
    · simp [filterText]
  · split
    · next statuses rest h =>
      obtain ⟨hlt, hne, rfl⟩ := eq_of_readFilter? h
      exact ⟨hlt, fun _ => hne, rfl⟩
    · simp [filterText]

/-- The position sign is read, if what follows is none. -/
theorem readPosition_positionText (p : Option Position) {c : Char} (hfirst : c ≠ '<')
    (hlast : c ≠ '>') (cs : List Char) :
  readPosition (positionText p ++ c :: cs) = (p, c :: cs)
  := by
  cases p with
  | none =>
    rw [positionText, List.nil_append, readPosition]
    · rintro _ heq
      apply hfirst (List.cons_eq_cons.1 heq).1
    · rintro _ heq
      apply hlast (List.cons_eq_cons.1 heq).1
  | some p => cases p <;> rfl

/-- The position sign that is read has been written there. -/
theorem eq_of_readPosition (cs : List Char) :
  cs = positionText (readPosition cs).1 ++ (readPosition cs).2
  := by
  unfold readPosition
  split <;> rfl

/-- The parameter is read from its written form, if no brace follows. -/
theorem readParameter_parameterText {p : Option String}
    (h : ∀ name ∈ p, name.toList ≠ [] ∧ '\x7d' ∉ name.toList) {c : Char}
    (hc : c ≠ '\x7b') (cs : List Char) :
  readParameter (parameterText p ++ c :: cs) = (p, c :: cs)
  := by
  cases p with
  | none =>
    rw [parameterText, List.nil_append, readParameter]
    rintro _ heq
    apply hc (List.cons_eq_cons.1 heq).1
  | some name =>
    obtain ⟨hne, hbrace⟩ := h name rfl
    have hname : ∀ d ∈ name.toList, (d != '\x7d') = true := by
      intro d hd
      simp only [bne_iff_ne]
      rintro rfl
      apply hbrace hd
    have htake : (name.toList ++ '\x7d' :: c :: cs).takeWhile (· != '\x7d') = name.toList := by
      rw [List.takeWhile_append_of_pos hname]
      simp
    have hdrop : (name.toList ++ '\x7d' :: c :: cs).dropWhile (· != '\x7d')
        = '\x7d' :: c :: cs := by
      rw [List.dropWhile_append_of_pos hname]
      simp
    obtain ⟨d, ds, hcons⟩ := List.exists_cons_of_ne_nil hne
    have htext : parameterText (some name) ++ c :: cs
        = '\x7b' :: (name.toList ++ '\x7d' :: c :: cs) := by
      simp [parameterText]
    have hofList : String.ofList (d :: ds) = name := by
      rw [← hcons, String.ofList_toList]
    rw [htext, readParameter, htake, hdrop, hcons]
    simp only [hofList]

/-- The parameter that is read has been written there. -/
theorem eq_of_readParameter (cs : List Char) :
  (∀ name ∈ (readParameter cs).1, name.toList ≠ [] ∧ '\x7d' ∉ name.toList)
    ∧ cs = parameterText (readParameter cs).1 ++ (readParameter cs).2
  := by
  unfold readParameter
  split
  · next ds =>
    split
    · next c name rest hname hrest =>
      have hmem : ∀ d ∈ c :: name, d ≠ '\x7d' := by
        intro d hd
        rw [← hname] at hd
        simpa using List.mem_takeWhile_imp hd
      have hds : ds = (c :: name) ++ '\x7d' :: rest := by
        rw [← hname, ← hrest, List.takeWhile_append_dropWhile]
      constructor
      · rintro _ ⟨⟩
        rw [String.toList_ofList]
        exact ⟨by simp, fun hd => hmem _ hd rfl⟩
      · simp [parameterText, hds]
    · simp [parameterText]
  · simp [parameterText]

/-! ### Directive words -/

/-- A key cannot be taken for the beginning of another part. -/
theorem isKey_separates {c : Char} (h : isKey c) :
  EndsFilter c ∧ c ≠ '<' ∧ c ≠ '>' ∧ c ≠ '\x7b'
  := by
  have hdigit : ¬c.isDigit := by
    intro hdigit
    have hbounds : 48 ≤ c.toNat ∧ c.toNat ≤ 57 := Char.isDigit_iff_toNat.1 hdigit
    simp only [isKey, Char.isAlpha, Char.isUpper, Char.isLower, Bool.or_eq_true,
      Bool.and_eq_true, decide_eq_true_eq, beq_iff_eq, ge_iff_le, UInt32.le_iff_toNat_le] at h
    rcases h with (⟨h, -⟩ | ⟨h, -⟩) | rfl
    · have h : 65 ≤ c.toNat := h
      omega
    · have h : 97 ≤ c.toNat := h
      omega
    · revert hdigit
      decide
  refine ⟨⟨?_, ?_, hdigit⟩, ?_, ?_, ?_⟩ <;> rintro rfl <;> revert h <;> decide

/-- A directive is read from what follows the `%` of its word. -/
theorem read?_body {d : Directive} (h : d.Valid) (rest : List Char) :
  read? (d.body ++ rest) = some (d, rest)
  := by
  obtain ⟨hends, hfirst, hlast, hbrace⟩ := isKey_separates h.isKey_key
  -- Each part is read up to the first character of the next, which it cannot take.
  obtain ⟨c, cs, hc, hcends, hcfirst, hclast⟩ : ∃ c cs,
      parameterText d.parameter ++ d.key :: rest = c :: cs
        ∧ EndsFilter c ∧ c ≠ '<' ∧ c ≠ '>' := by
    cases d.parameter with
    | none => exact ⟨d.key, rest, rfl, hends, hfirst, hlast⟩
    | some name =>
      exact ⟨'\x7b', _, rfl, ⟨by decide, by decide, by decide⟩, by decide, by decide⟩
  obtain ⟨b, bs, hb, hbends⟩ : ∃ b bs,
      positionText d.position ++ c :: cs = b :: bs ∧ EndsFilter b := by
    rcases d.position with _ | _ | _
    · exact ⟨c, cs, rfl, hcends⟩
    · exact ⟨'<', _, rfl, by decide, by decide, by decide⟩
    · exact ⟨'>', _, rfl, by decide, by decide, by decide⟩
  have hbody : d.body ++ rest = filterText d.inverse d.statuses ++ b :: bs := by
    rw [body, ← hb, ← hc]
    simp
  have hcondition := readCondition_filterText h.statuses_lt h.inverse_filter hbends bs
  have hposition := readPosition_positionText d.position hcfirst hclast cs
  have hparameter := readParameter_parameterText h.parameter_ne hbrace rest
  rw [hb] at hposition
  rw [hc] at hparameter
  simp only [read?, hbody, hcondition, hposition, hparameter, if_pos h.isKey_key]

/-- A directive that is read has been written there. -/
theorem eq_of_read? {cs rest : List Char} {d : Directive} (h : read? cs = some (d, rest)) :
  d.Valid ∧ cs = d.body ++ rest
  := by
  obtain ⟨hlt, hne, hcondition⟩ := eq_of_readCondition cs
  have hposition := eq_of_readPosition (readCondition cs).2
  obtain ⟨hname, hparameter⟩ := eq_of_readParameter (readPosition (readCondition cs).2).2
  simp only [read?] at h
  split at h
  · next c rest' hc =>
    split at h
    · next hkey =>
      cases h
      refine ⟨⟨hlt, hne, hname, hkey⟩, ?_⟩
      rw [hc] at hparameter
      rw [body]
      simp only [List.append_assoc, List.cons_append, List.nil_append]
      rw [← hparameter, ← hposition, ← hcondition]
    · cases h
  · cases h

/-- What is read from the front of a text is what has been written there. -/
theorem read?_eq_some_iff {cs rest : List Char} {d : Directive} :
  read? cs = some (d, rest) ↔ d.Valid ∧ cs = d.body ++ rest
  := by
  constructor
  · apply eq_of_read?
  · rintro ⟨h, rfl⟩
    apply read?_body h

end LogFormat.Directive
