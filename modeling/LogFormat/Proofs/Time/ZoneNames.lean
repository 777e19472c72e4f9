import LogFormat.Calendar.Offset
import LogFormat.Proofs.Time.OffsetTexts

/-!
# Names of zones

A zone is named by `UTC` in any case, by `Z`, or by a sign and hours and minutes, maybe with a
colon between them (`Offset.Names`).  All these names are read, and no other texts but those that
differ from such a name in the colons after the sign (`Offset.ofText_names`): there can be any
number of them in any place (`Offset.ofText_stray_colon`).
-/

namespace LogFormat

/-- The zone that an error is about. -/
def OffsetError.zone : OffsetError → String
  | .malformed zone => zone
  | .badMinutes zone => zone
  | .outOfRange zone => zone

namespace Offset

open OffsetSpelling

variable {zone rest digits : List Char} {n : Int} {h m : Nat}

/-! ### Names -/

/-- Whether a text is the name of a zone that is so many seconds ahead of UTC. -/
inductive Names : List Char → Int → Prop where
  | utc {name : List Char} (hname : name.map Char.toLower = ['u', 't', 'c']) : Names name 0
  | zulu : Names ['Z'] 0
  | minutes (behind : Bool) {h : Nat} (hh : h ≤ 23) (colon : Bool) {m : Nat} (hm : m ≤ 59) :
    Names (OffsetSpelling.minutes behind h colon m).text
      (OffsetSpelling.minutes behind h colon m).value

/-- Whether two texts are the same sign and the same characters after it but for colons. -/
def SameButColons (zone name : List Char) : Prop :=
  ∃ behind rest rest', zone = signText behind :: rest ∧ name = signText behind :: rest'
    ∧ rest.filter (· != ':') = rest'.filter (· != ':')

/-- Whether a text is read as a zone that is so many seconds ahead of UTC: it is the name of one,
or differs from it in the colons after the sign. -/
def TakenFor (zone : List Char) (n : Int) : Prop :=
  Names zone n ∨ ∃ name, SameButColons zone name ∧ Names name n

/-- Colons are passed over in hours and minutes. -/
theorem filter_pairText (h m : Nat) (colon : Bool) :
  (padded 2 h ++ pairText colon m).filter (· != ':') = padded 2 h ++ padded 2 m
  := by
  have hkeep : ∀ n, (padded 2 n).filter (· != ':') = padded 2 n := by
    intro n
    rw [List.filter_eq_self]
    intro c hc
    have hdigit := isDigit_of_mem_padded hc
    rw [bne_iff_ne]
    rintro rfl
    cases hdigit
  rw [pairText, List.filter_append, List.filter_append, hkeep, hkeep]
  cases colon <;> rfl

/-- A name with a sign is, but for the colon, two digits of hours and two of minutes after it. -/
theorem Names.exists_padded {behind : Bool} (hname : Names (signText behind :: rest) n) :
  ∃ h m, h ≤ 23 ∧ m ≤ 59 ∧ rest.filter (· != ':') = padded 2 h ++ padded 2 m
    ∧ n = (if behind then -1 else 1) * (h * 3600 + m * 60)
  := by
  generalize hzone : signText behind :: rest = zone at hname
  cases hname with
  | utc hname =>
    subst hzone
    cases behind <;> cases (List.cons.inj hname).1
  | zulu => cases behind <;> cases (List.cons.inj hzone).1
  | @minutes behind' h hh colon m hm =>
    obtain ⟨hsign, rfl⟩ := List.cons.inj hzone
    have hbehind : behind = behind' := by
      cases behind <;> cases behind' <;> first | rfl | cases hsign
    subst hbehind
    exact ⟨h, m, hh, hm, filter_pairText h m colon, rfl⟩

/-- A text with a sign is read as a zone just if, but for the colons, two digits of hours and two of
minutes come after the sign. -/
theorem takenFor_sign_iff {behind : Bool} :
  TakenFor (signText behind :: rest) n
    ↔ ∃ h m, h ≤ 23 ∧ m ≤ 59 ∧ rest.filter (· != ':') = padded 2 h ++ padded 2 m
      ∧ n = (if behind then -1 else 1) * (h * 3600 + m * 60)
  := by
  constructor
  · rintro (hname | ⟨name, ⟨behind', rest₁, rest₂, hzone, rfl, hcolons⟩, hname⟩)
    · exact hname.exists_padded
    · obtain ⟨hsign, rfl⟩ := List.cons.inj hzone
      rw [← hsign] at hname
      rw [hcolons]
      exact hname.exists_padded
  · rintro ⟨h, m, hh, hm, hrest, rfl⟩
    refine .inr ⟨(OffsetSpelling.minutes behind h true m).text, ?_, .minutes behind hh true hm⟩
    exact ⟨behind, rest, _, rfl, rfl, hrest.trans (filter_pairText h m true).symm⟩

/-- A text without a sign is read as a zone just if it is a name of UTC. -/
theorem takenFor_iff_of_not_sign (hsign : ∀ behind rest, zone ≠ signText behind :: rest) :
  TakenFor zone n ↔ (sameLetters zone ['u', 't', 'c'] || zone == ['Z']) ∧ n = 0
  := by
  constructor
  · rintro (hname | ⟨name, ⟨behind, rest, rest', rfl, -, -⟩, -⟩)
    · cases hname with
      | utc hname => exact ⟨by rw [sameLetters, hname]; rfl, rfl⟩
      | zulu => exact ⟨rfl, rfl⟩
      | minutes behind hh colon hm => exact absurd rfl (hsign behind _)
    · exact absurd rfl (hsign behind rest)
  · rintro ⟨hname, rfl⟩
    rw [Bool.or_eq_true, sameLetters, beq_iff_eq, beq_iff_eq] at hname
    obtain hname | rfl := hname
    · exact .inl (.utc hname)
    · exact .inl .zulu

/-! ### Digits -/

/-- Two digits and two digits are four, and four digits are two and two. -/
theorem fourDigits_iff :
  (digits.length = 4 ∧ digits.all Char.isDigit)
    ↔ ∃ h m, h < 100 ∧ m < 100 ∧ digits = padded 2 h ++ padded 2 m
  := by
  constructor
  · rintro ⟨hlength, hall⟩
    rw [← List.take_append_drop 2 digits, List.all_append, Bool.and_eq_true] at hall
    have hpair : ∀ ds : List Char, ds.length = 2 → ds.all Char.isDigit →
        digitsValue ds < 100 ∧ padded 2 (digitsValue ds) = ds := by
      intro ds hds hall
      have hlt := digitsValue_lt hall
      have hpadded := padded_digitsValue (List.all_eq_true.1 hall)
        (List.ne_nil_of_length_pos (by omega))
      rw [hds] at hlt hpadded
      exact ⟨hlt, hpadded⟩
    obtain ⟨hh, hhours⟩ := hpair _ (by rw [List.length_take]; omega) hall.1
    obtain ⟨hm, hminutes⟩ := hpair _ (by rw [List.length_drop]; omega) hall.2
    refine ⟨_, _, hh, hm, ?_⟩
    rw [hhours, hminutes, List.take_append_drop]
  · rintro ⟨h, m, hh, hm, rfl⟩
    rw [List.length_append, length_padded (by decide) hh, length_padded (by decide) hm,
      List.all_eq_true, List.forall_mem_append]
    exact ⟨rfl, fun _ => isDigit_of_mem_padded, fun _ => isDigit_of_mem_padded⟩

/-- A number of seconds is an offset just if it is less than a day. -/
theorem ofSeconds?_eq_some_iff {o : Offset} :
  ofSeconds? n = some o ↔ o.seconds = n
  := by
  rw [ofSeconds?]
  constructor
  · intro h
    split_ifs at h
    cases h
    rfl
  · rintro rfl
    rw [dif_pos o.bounds]

/-- Two digits of hours and two of minutes are an offset if they are in bounds. -/
theorem ofDigits_padded (hh : h < 100) (hm : m < 100) (zone : String) (sign : Int) :
  ofDigits zone sign (padded 2 h ++ padded 2 m)
    = if 60 ≤ m then .error (.badMinutes zone)
      else (ofSeconds? (sign * (h * 3600 + m * 60))).elim (.error (.outOfRange zone)) .ok
  := by
  have hhours : (padded 2 h).length = 2 := length_padded (by decide) hh
  rw [ofDigits, if_pos (fourDigits_iff.2 ⟨h, m, hh, hm, rfl⟩), List.take_left' hhours,
    List.drop_left' hhours, digitsValue_padded, digitsValue_padded]
  push_cast
  cases ofSeconds? (sign * (h * 3600 + m * 60)) <;> rfl

/-- Digits are an offset just if they are two of hours and two of minutes in bounds. -/
theorem ofDigits_eq_ok_iff {sign : Int} (hsign : sign = 1 ∨ sign = -1) (zone : String) :
  (∃ o, ofDigits zone sign digits = .ok o ∧ o.seconds = n)
    ↔ ∃ h m, h ≤ 23 ∧ m ≤ 59 ∧ digits = padded 2 h ++ padded 2 m
      ∧ n = sign * (h * 3600 + m * 60)
  := by
  constructor
  · rintro ⟨o, ho, rfl⟩
    by_cases hfour : digits.length = 4 ∧ digits.all Char.isDigit
    · obtain ⟨h, m, hh, hm, rfl⟩ := fourDigits_iff.1 hfour
      rw [ofDigits_padded hh hm] at ho
      split_ifs at ho with hminutes
      cases hseconds : ofSeconds? (sign * (h * 3600 + m * 60)) with
      | none =>
        rw [hseconds] at ho
        cases ho
      | some o' =>
        rw [hseconds] at ho
        cases ho
        have hvalue := ofSeconds?_eq_some_iff.1 hseconds
        have hbounds := o.bounds
        refine ⟨h, m, ?_, by omega, rfl, hvalue⟩
        obtain rfl | rfl := hsign <;> omega
    · rw [ofDigits, if_neg hfour] at ho
      cases ho
  · rintro ⟨h, m, hh, hm, rfl, rfl⟩
    have hbounds : -86400 < sign * (h * 3600 + m * 60) ∧ sign * (h * 3600 + m * 60) < 86400 := by
      obtain rfl | rfl := hsign <;> omega
    have hseconds : ofSeconds? (sign * (h * 3600 + m * 60)) = some ⟨_, hbounds⟩ :=
      ofSeconds?_eq_some_iff.2 rfl
    refine ⟨⟨_, hbounds⟩, ?_, rfl⟩
    rw [ofDigits_padded (by omega) (by omega), if_neg (by omega), hseconds]
    rfl

/-- What is wrong with digits is said of their zone. -/
theorem zone_of_ofDigits {zone : String} {sign : Int} {error : OffsetError}
    (h : ofDigits zone sign digits = .error error) :
  error.zone = zone
  := by
  by_cases hfour : digits.length = 4 ∧ digits.all Char.isDigit
  · obtain ⟨hours, minutes, hh, hm, rfl⟩ := fourDigits_iff.1 hfour
    rw [ofDigits_padded hh hm] at h
    split_ifs at h
    · cases h
      rfl
    · cases hseconds : ofSeconds? (sign * (hours * 3600 + minutes * 60)) with
      | none =>
        rw [hseconds] at h
        cases h
        rfl
      | some o =>
        rw [hseconds] at h
        cases h
  · rw [ofDigits, if_neg hfour] at h
    cases h
    rfl

/-! ### Reading names -/

/-- What comes after a sign is read as digits between which colons are passed over. -/
theorem ofText_of_sign {text : String} {behind : Bool}
    (hzone : trim text.toList = signText behind :: rest) :
  ofText text = ofDigits (String.ofList (signText behind :: rest)) (if behind then -1 else 1)
    (rest.filter (· != ':'))
  := by
  have hname : (sameLetters (signText behind :: rest) ['u', 't', 'c']
      || signText behind :: rest == ['Z']) = false := by
    cases behind <;> simp [sameLetters, signText]
  rw [ofText, hzone]
  simp only [hname]
  cases behind with
  | false => simp only [signText, Bool.false_eq_true, if_false]
  | true => simp only [signText, Bool.false_eq_true, if_false, if_true]

/-- Without a sign, only a name of UTC is read. -/
theorem ofText_of_not_sign {text : String}
    (hsign : ∀ behind rest, trim text.toList ≠ signText behind :: rest) :
  ofText text
    = if sameLetters (trim text.toList) ['u', 't', 'c'] || trim text.toList == ['Z'] then .ok utc
      else .error (.malformed (String.ofList (trim text.toList)))
  := by
  rw [ofText]
  split
  · rfl
  · split
    · next rest heq => exact absurd heq (hsign false rest)
    · next rest heq => exact absurd heq (hsign true rest)
    · rfl

/-- A text is read as a zone just if it is taken for one without the blanks around it. -/
theorem ofText_eq_ok_iff {text : String} :
  (∃ o, ofText text = .ok o ∧ o.seconds = n) ↔ TakenFor (trim text.toList) n
  := by
  by_cases hsign : ∃ behind rest, trim text.toList = signText behind :: rest
  · obtain ⟨behind, rest, hzone⟩ := hsign
    rw [ofText_of_sign hzone, hzone, takenFor_sign_iff, ofDigits_eq_ok_iff]
    cases behind
    · exact .inl rfl
    · exact .inr rfl
  · push Not at hsign
    rw [ofText_of_not_sign hsign, takenFor_iff_of_not_sign hsign]
    split_ifs with hname
    · constructor
      · rintro ⟨o, ho, rfl⟩
        cases ho
        exact ⟨hname, rfl⟩
      · rintro ⟨-, rfl⟩
        exact ⟨utc, rfl, rfl⟩
    · constructor
      · rintro ⟨o, ho, -⟩
        cases ho
      · rintro ⟨hname', -⟩
        exact absurd hname' hname

/-- What is wrong with a text is said of it without the blanks around it. -/
theorem zone_of_ofText {text : String} {error : OffsetError} (h : ofText text = .error error) :
  error.zone = String.ofList (trim text.toList)
  := by
  by_cases hsign : ∃ behind rest, trim text.toList = signText behind :: rest
  · obtain ⟨behind, rest, hzone⟩ := hsign
    rw [ofText_of_sign hzone] at h
    rw [hzone, zone_of_ofDigits h]
  · push Not at hsign
    rw [ofText_of_not_sign hsign] at h
    split_ifs at h
    cases h
    rfl

/-- An offset of hours and minutes is the name of its zone. -/
theorem ofText_minutes (hh : h < 24) (hm : m < 60) (behind colon : Bool) :
  ∃ zone, ofText (String.ofList (OffsetSpelling.minutes behind h colon m).text) = .ok zone
    ∧ zone.seconds = (OffsetSpelling.minutes behind h colon m).value
  := by
  rw [ofText_eq_ok_iff, String.toList_ofList, trim_eq_self (not_isBlank_of_mem _)]
  exact .inl (.minutes behind (by omega) colon (by omega))

/-- A text is read just if, without the blanks around it, it is the name of a zone or differs from
one in the colons after the sign, and then as the offset of that zone.  Any other text is an error,
which names the text without the blanks. -/
theorem ofText_names (text : String) :
  ∃ zone, Surrounds text.toList zone
    ∧ (∀ n, (∃ o, ofText text = .ok o ∧ o.seconds = n) ↔ TakenFor zone n)
    ∧ ((∃ n, TakenFor zone n)
      ∨ ∃ error, ofText text = .error error ∧ error.zone = String.ofList zone)
  := by
  refine ⟨trim text.toList, surrounds_trim text.toList, fun n => ofText_eq_ok_iff, ?_⟩
  cases h : ofText text with
  | ok o => exact .inl ⟨o.seconds, ofText_eq_ok_iff.1 ⟨o, h, rfl⟩⟩
  | error error => exact .inr ⟨error, rfl, zone_of_ofText h⟩

/-- A colon between the two digits of the hour makes a text that is the name of no zone, and that is
read as nine hours all the same. -/
theorem ofText_stray_colon :
  Surrounds "+0:900".toList "+0:900".toList
    ∧ (∃ o, ofText "+0:900" = .ok o ∧ o.seconds = 32400)
    ∧ ∀ n, ¬Names "+0:900".toList n
  := by
  have htext : "+0:900".toList = ['+', '0', ':', '9', '0', '0'] := by decide
  refine ⟨trim_eq_iff.1 (by decide), ⟨⟨32400, by decide⟩, by decide, rfl⟩, fun n hname => ?_⟩
  rw [htext] at hname
  generalize hzone : ['+', '0', ':', '9', '0', '0'] = zone at hname
  cases hname with
  | utc hname =>
    subst hzone
    revert hname
    decide
  | zulu => cases hzone
  | @minutes behind h hh colon m hm =>
    -- The second character after the sign of a name is a digit.
    obtain ⟨a, b, hpadded, -, hdigit, -⟩ := exists_padded_two (by omega : h < 100)
    rw [OffsetSpelling.text, hpadded, List.cons_append, List.cons_append] at hzone
    have hcolon : ':' = b := (List.cons.inj (List.cons.inj (List.cons.inj hzone).2).2).1
    rw [← hcolon] at hdigit
    cases hdigit

end Offset

end LogFormat
