import LogFormat.Proofs.Text.Separators
import LogFormat.Proofs.Time.Samples

/-!
# Texts with another ending

What an item reads from the front of a text does not depend on how the text ends, as long as the
ending does not go on what has been read: it begins with no digit, no point and no letter of a name
(`Item.readSimple_ending`).  So if items read a text up to its ending, they fill the same slots from
the text with another ending, and leave that (`readItems_ending`).
-/

namespace LogFormat

/-! ### Endings of texts -/

/-- Two texts with the same ending are what is before the ending. -/
theorem eq_drop_of_append {u v ending : List Char} {n : Nat} (hn : n ≤ (u ++ ending).length)
    (h : (u ++ ending).drop n = v ++ ending) :
  n ≤ u.length ∧ v = u.drop n
  := by
  have hlength := congrArg List.length h
  rw [List.length_drop, List.length_append, List.length_append] at hlength
  rw [List.length_append] at hn
  have hle : n ≤ u.length := by omega
  rw [List.drop_append_of_le_length hle] at h
  exact ⟨hle, (List.append_cancel_right h).symm⟩

/-! ### Digits -/

/-- The characters at the front of a text among which digits are read. -/
def withinWidth (most : Option Nat) (cs : List Char) : List Char :=
  match most with
  | none => cs
  | some most => cs.take most

theorem readDigits_eq (least : Nat) (most : Option Nat) (cs : List Char) :
  readDigits least most cs
    = let ds := (withinWidth most cs).takeWhile Char.isDigit
      if shorterThan least cs then .error .tooShort
      else if ds.length < least then .error .invalid
      else if maxInteger < (digitsValue ds : Int) then .error .outOfRange
      else .ok ((digitsValue ds : Int), cs.drop ds.length)
  := by
  cases most <;> rfl

/-- No digits are read from an ending that begins with none. -/
theorem exists_digits (most : Option Nat) (u : List Char) :
  ∃ ds, ds <+: u ∧ ∀ ending, EndsDigits ending →
    (withinWidth most (u ++ ending)).takeWhile Char.isDigit = ds
  := by
  cases most with
  | none =>
    exact ⟨u.takeWhile Char.isDigit, List.takeWhile_prefix _, fun _ hending =>
      (takeWhile_append_ending hending u).1⟩
  | some most =>
    refine ⟨(u.take most).takeWhile Char.isDigit,
      (List.takeWhile_prefix _).trans (List.take_prefix _ _), fun ending hending => ?_⟩
    rw [withinWidth, List.take_append]
    refine (takeWhile_append_ending ?_ _).1
    intro c hc
    rw [List.head?_take] at hc
    split_ifs at hc
    · cases hc
    · exact hending c hc

/-- Digits that are read do not go on in an ending that begins with none. -/
theorem readDigits_ending {least : Nat} {most : Option Nat} {u ending rest : List Char} {n : Int}
    (hending : EndsDigits ending)
    (h : readDigits least most (u ++ ending) = .ok (n, rest)) :
  ∃ v, rest = v ++ ending ∧ v.length + least ≤ u.length
    ∧ ∀ ending', EndsDigits ending' →
        readDigits least most (u ++ ending') = .ok (n, v ++ ending')
  := by
  obtain ⟨ds, hprefix, hds⟩ := exists_digits most u
  have hle := hprefix.length_le
  simp only [readDigits_eq, hds ending hending, List.drop_append_of_le_length hle] at h
  split_ifs at h with hshort hfew hlarge
  cases h
  refine ⟨u.drop ds.length, rfl, by rw [List.length_drop]; omega, ?_⟩
  intro ending' hending'
  have hlong : shorterThan least (u ++ ending') = false :=
    shorterThan_of_length_le (by rw [List.length_append]; omega)
  simp only [readDigits_eq, hds ending' hending', List.drop_append_of_le_length hle, hlong, if_neg hfew,
    if_neg hlarge, Bool.false_eq_true, if_false]

/-- A number is read alike with another ending, if the text before the ending is not empty. -/
theorem Quantity.readNumber_ending {q : Quantity} {u ending rest : List Char} {n : Int}
    (hu : u ≠ []) (hending : EndsDigits ending)
    (h : q.readNumber (u ++ ending) = .ok (n, rest)) :
  ∃ v, rest = v ++ ending ∧ v.length < u.length
    ∧ ∀ ending', EndsDigits ending' → q.readNumber (u ++ ending') = .ok (n, v ++ ending')
  := by
  rw [readNumber] at h
  simp only [readNumber]
  split at h
  · next hsigned =>
    simp only [if_pos hsigned]
    obtain ⟨c, u, rfl⟩ := List.exists_cons_of_ne_nil hu
    rw [List.cons_append, readSigned.eq_def] at h
    simp only [List.cons_append, readSigned.eq_def]
    split at h
    · next heq =>
      cases heq
      obtain ⟨⟨m, rest'⟩, hread, hresult⟩ := map_eq_ok.1 h
      cases hresult
      obtain ⟨v, hrest, hlength, hother⟩ := readDigits_ending hending hread
      refine ⟨v, hrest, by rw [List.length_cons]; omega, fun ending' hending' => ?_⟩
      simp only [hother ending' hending', Except.map]
    · next heq =>
      cases heq
      obtain ⟨v, hrest, hlength, hother⟩ := readDigits_ending hending h
      refine ⟨v, hrest, by rw [List.length_cons]; omega, fun ending' hending' => ?_⟩
      simp only [hother ending' hending']
    · next hminus hplus =>
      rw [← List.cons_append] at h
      obtain ⟨v, hrest, hlength, hother⟩ := readDigits_ending hending h
      refine ⟨v, hrest, by omega, fun ending' hending' => ?_⟩
      split
      · next heq =>
        cases heq
        exact absurd rfl (hminus _)
      · next heq =>
        cases heq
        exact absurd rfl (hplus _)
      · rw [← List.cons_append, hother ending' hending']
  · next hunsigned =>
    simp only [if_neg hunsigned]
    obtain ⟨v, hrest, hlength, hother⟩ := readDigits_ending hending h
    exact ⟨v, hrest, by omega, hother⟩

/-- A number that is read is not empty. -/
theorem Quantity.length_of_readNumber {q : Quantity} {cs rest : List Char} {n : Int}
    (h : q.readNumber cs = .ok (n, rest)) :
  rest.length < cs.length
  := by
  cases cs with
  | nil => cases q <;> cases h
  | cons c cs =>
    have hnil : EndsDigits [] := by rintro c ⟨⟩
    rw [← List.append_nil (c :: cs)] at h
    obtain ⟨v, rfl, hlength, -⟩ := readNumber_ending (List.cons_ne_nil c cs) hnil h
    rwa [List.append_nil]

/-- The digits of a part of a second are read alike with another ending. -/
theorem readFractionDigits_ending {p : Precision} {u ending rest : List Char} {n : Int}
    (hending : EndsDigits ending) (h : readFractionDigits p (u ++ ending) = .ok (n, rest)) :
  ∃ v, rest = v ++ ending ∧ v.length < u.length
    ∧ ∀ ending', EndsDigits ending' →
        readFractionDigits p (u ++ ending') = .ok (n, v ++ ending')
  := by
  rw [readFractionDigits] at h
  obtain ⟨⟨m, rest'⟩, hread, hresult⟩ := map_eq_ok.1 h
  cases hresult
  obtain ⟨v, hrest, hlength, hother⟩ := readDigits_ending hending hread
  have hpositive : 0 < p.digits := by cases p <;> decide
  refine ⟨v, hrest, by omega, fun ending' hending' => ?_⟩
  rw [readFractionDigits, hother ending' hending']
  rfl

/-- A part of a second is read alike with another ending. -/
theorem Item.readPart_ending {precision : Option Precision} {u ending rest : List Char} {n : Int}
    (hending : EndsDigits ending) (h : readPart precision (u ++ ending) = .ok (n, rest)) :
  ∃ v, rest = v ++ ending
    ∧ ∀ ending', EndsDigits ending' → readPart precision (u ++ ending') = .ok (n, v ++ ending')
  := by
  cases precision with
  | some p =>
    obtain ⟨v, hrest, -, hother⟩ := readFractionDigits_ending hending h
    exact ⟨v, hrest, hother⟩
  | none =>
    simp only [readPart, readFraction] at h ⊢
    obtain ⟨⟨m, rest'⟩, hread, hresult⟩ := map_eq_ok.1 h
    obtain ⟨v, rfl, hlength, hother⟩ := readDigits_ending hending hread
    have hcount : ∀ ending' : List Char,
        (u ++ ending').length - (v ++ ending').length = u.length - v.length := by
      intro ending'
      rw [List.length_append, List.length_append]
      omega
    simp only [hcount, (takeWhile_append_ending hending v).2] at hresult
    cases hresult
    refine ⟨_, rfl, fun ending' hending' => ?_⟩
    simp only [hother ending' hending', Except.map, hcount,
      (takeWhile_append_ending hending' v).2]

/-- Digits are read from the front of a text. -/
theorem suffix_of_readDigits {least : Nat} {most : Option Nat} {cs rest : List Char} {n : Int}
    (h : readDigits least most cs = .ok (n, rest)) :
  rest <:+ cs
  := by
  rw [readDigits_eq] at h
  dsimp only at h
  split_ifs at h
  cases h
  exact List.drop_suffix _ _

theorem Quantity.suffix_of_readNumber {q : Quantity} {cs rest : List Char} {n : Int}
    (h : q.readNumber cs = .ok (n, rest)) :
  rest <:+ cs
  := by
  rw [readNumber] at h
  split at h
  · rw [readSigned.eq_def] at h
    split at h
    · next cs =>
      obtain ⟨⟨m, rest'⟩, hread, hresult⟩ := map_eq_ok.1 h
      cases hresult
      exact (suffix_of_readDigits hread).trans (List.suffix_cons _ _)
    · exact (suffix_of_readDigits h).trans (List.suffix_cons _ _)
    · exact suffix_of_readDigits h
  · exact suffix_of_readDigits h

theorem suffix_of_readFractionDigits {p : Precision} {cs rest : List Char} {n : Int}
    (h : readFractionDigits p cs = .ok (n, rest)) :
  rest <:+ cs
  := by
  rw [readFractionDigits] at h
  obtain ⟨⟨m, rest'⟩, hread, hresult⟩ := map_eq_ok.1 h
  cases hresult
  exact suffix_of_readDigits hread

theorem Item.suffix_of_readPart {precision : Option Precision} {cs rest : List Char} {n : Int}
    (h : readPart precision cs = .ok (n, rest)) :
  rest <:+ cs
  := by
  cases precision with
  | some p => exact suffix_of_readFractionDigits h
  | none =>
    rw [readPart, readFraction] at h
    obtain ⟨⟨m, rest'⟩, hread, hresult⟩ := map_eq_ok.1 h
    cases hresult
    exact (List.dropWhile_suffix _).trans (suffix_of_readDigits hread)

/-! ### Names -/

/-- Texts that are the same but for the case of letters have the same length. -/
theorem length_of_sameLetters {cs ds : List Char} (h : Offset.sameLetters cs ds) :
  cs.length = ds.length
  := by
  have heq := congrArg List.length (beq_iff_eq.1 h)
  rwa [List.length_map, List.length_map] at heq

/-- Characters that stand at the same place in such texts are the same but for their case. -/
theorem toLower_of_sameLetters {cs ds u v : List Char} {c : Char}
    (h : Offset.sameLetters cs ds) (hds : ds = u ++ c :: v) :
  ∃ d ∈ cs, d.toLower = c.toLower
  := by
  have heq : cs.map Char.toLower = ds.map Char.toLower := beq_iff_eq.1 h
  have hmem : c.toLower ∈ cs.map Char.toLower := by
    rw [heq, hds]
    exact List.mem_map_of_mem (by simp)
  exact List.mem_map.1 hmem

/-- No name goes on in the text: it begins with no letter of a name. -/
def EndsNames (names : List (List Char)) (ending : List Char) : Prop :=
  ∀ c ∈ ending.head?, ∀ name ∈ names, ∀ d ∈ name, d.toLower ≠ c.toLower

/-- A name that does not go on before an ending does not do so before another one in which no name
goes on. -/
theorem sameLetters_ending {name u ending ending' : List Char}
    (hending' : ∀ c ∈ ending'.head?, ∀ d ∈ name, d.toLower ≠ c.toLower)
    (h : ¬Offset.sameLetters name ((u ++ ending).take name.length)) :
  ¬Offset.sameLetters name ((u ++ ending').take name.length)
  := by
  intro hsame
  by_cases hle : name.length ≤ u.length
  · rw [List.take_append_of_le_length hle] at h hsame
    exact h hsame
  · have hlength := length_of_sameLetters hsame
    cases ending' with
    | nil =>
      rw [List.append_nil, List.length_take] at hlength
      omega
    | cons c ending' =>
      -- The name would have the first character of the ending.
      have htake : (u ++ c :: ending').take name.length
          = u ++ c :: ending'.take (name.length - u.length - 1) := by
        rw [List.take_append, List.take_of_length_le (by omega), List.take_cons (by omega)]
      obtain ⟨d, hd, heq⟩ := toLower_of_sameLetters hsame htake
      exact hending' c rfl d hd heq

/-- The rest of a name in its long form is passed over if it stands there. -/
def afterName (name : List Char) (form : NameForm) (cs : List Char) : List Char :=
  match form with
  | .short => cs
  | .long =>
    if Offset.sameLetters (name.drop 3) (cs.take (name.drop 3).length) then
      cs.drop (name.drop 3).length
    else
      cs

/-- A name is found by its first three letters. -/
theorem readName_append {names : List (List Char)} {form : NameForm} {letters : List Char}
    (hletters : letters.length = 3) (cs : List Char) :
  readName names form (letters ++ cs)
    = match names.findIdx? fun name => Offset.sameLetters (name.take 3) letters with
      | none => .error .invalid
      | some i => .ok ((i : Int), afterName (names.getD i []) form cs)
  := by
  have hlong : shorterThan 3 (letters ++ cs) = false :=
    shorterThan_of_length_le (by rw [List.length_append]; omega)
  rw [readName, hlong, if_neg Bool.false_ne_true, List.take_left' hletters,
    List.drop_left' hletters]
  cases names.findIdx? fun name => Offset.sameLetters (name.take 3) letters with
  | none => rfl
  | some i =>
    cases form with
    | short => rfl
    | long =>
      simp only [afterName]
      split <;> rfl

/-- A name that is read has three letters at least, if all names have. -/
theorem length_of_readName {names : List (List Char)} (hnames : ∀ name ∈ names, 3 ≤ name.length)
    {form : NameForm} {cs rest : List Char} {n : Int}
    (h : readName names form cs = .ok (n, rest)) :
  rest.length + 3 ≤ cs.length
  := by
  rw [readName] at h
  split at h
  · cases h
  · split at h
    · cases h
    · next i hi =>
      obtain ⟨hlt, hsame, -⟩ := List.findIdx?_eq_some_iff_getElem.1 hi
      have hlength := length_of_sameLetters hsame
      have hname := hnames _ (List.getElem_mem hlt)
      rw [List.length_take, List.length_take] at hlength
      have hle : rest.length ≤ (cs.drop 3).length := by
        simp only at h
        split at h
        · cases h
          exact Nat.le_refl _
        · split at h
          · cases h
            rw [List.length_drop]
            omega
          · cases h
            exact Nat.le_refl _
      rw [List.length_drop] at hle
      omega

theorem suffix_of_readName {names : List (List Char)} {form : NameForm} {cs rest : List Char}
    {n : Int} (h : readName names form cs = .ok (n, rest)) :
  rest <:+ cs
  := by
  rw [readName] at h
  split at h
  · cases h
  · split at h
    · cases h
    · simp only at h
      split at h
      · cases h
        exact List.drop_suffix _ _
      · split at h <;> cases h
        · exact (List.drop_suffix _ _).trans (List.drop_suffix _ _)
        · exact List.drop_suffix _ _

/-- What is passed over of a name does not change with an ending in which the name does not go
on. -/
theorem afterName_ending {name : List Char} {form : NameForm} {u v ending ending' : List Char}
    (hending' : ∀ c ∈ ending'.head?, ∀ d ∈ name, d.toLower ≠ c.toLower)
    (h : afterName name form (u ++ ending) = v ++ ending) :
  afterName name form (u ++ ending') = v ++ ending'
  := by
  cases form with
  | short =>
    obtain rfl := List.append_cancel_right h
    rfl
  | long =>
    simp only [afterName] at h ⊢
    split at h
    · next hsame =>
      have hlength := length_of_sameLetters hsame
      rw [List.length_take] at hlength
      obtain ⟨hle, rfl⟩ := eq_drop_of_append (by omega) h
      rw [List.take_append_of_le_length hle] at hsame ⊢
      rw [if_pos hsame, List.drop_append_of_le_length hle]
    · next hdiffer =>
      obtain rfl := List.append_cancel_right h
      rw [if_neg]
      apply sameLetters_ending _ hdiffer
      exact fun c hc d hd => hending' c hc d (List.mem_of_mem_drop hd)

/-- A name is read alike with another ending in which no name goes on. -/
theorem readName_ending {names : List (List Char)} (hnames : ∀ name ∈ names, 3 ≤ name.length)
    {form : NameForm} {u v ending ending' : List Char} {n : Int}
    (hending' : EndsNames names ending')
    (h : readName names form (u ++ ending) = .ok (n, v ++ ending)) :
  readName names form (u ++ ending') = .ok (n, v ++ ending')
  := by
  have hlength := length_of_readName hnames h
  rw [List.length_append, List.length_append] at hlength
  have hletters : (u.take 3).length = 3 := by
    rw [List.length_take]
    omega
  rw [← List.take_append_drop 3 u, List.append_assoc, readName_append hletters] at h ⊢
  cases hfind : names.findIdx? fun name => Offset.sameLetters (name.take 3) (u.take 3) with
  | none =>
    rw [hfind] at h
    cases h
  | some i =>
    rw [hfind] at h
    obtain ⟨rfl, hafter⟩ := Prod.mk.inj (Except.ok.inj h)
    obtain ⟨hlt, -⟩ := List.findIdx?_eq_some_iff_getElem.1 hfind
    have hname : names.getD i [] ∈ names := by
      rw [List.getD_eq_getElem?_getD, List.getElem?_eq_getElem hlt, Option.getD_some]
      exact List.getElem_mem hlt
    simp only [afterName_ending (fun c hc => hending' c hc _ hname) hafter]

/-- A half of the day is found by its two letters. -/
theorem readHalf_append {letters : List Char} (hletters : letters.length = 2) (cs : List Char) :
  readHalf (letters ++ cs)
    = if Offset.sameLetters letters ['a', 'm'] then .ok (0, cs)
      else if Offset.sameLetters letters ['p', 'm'] then .ok (1, cs)
      else .error .invalid
  := by
  have hlong : shorterThan 2 (letters ++ cs) = false :=
    shorterThan_of_length_le (by rw [List.length_append]; omega)
  rw [readHalf, hlong, if_neg Bool.false_ne_true, List.take_left' hletters,
    List.drop_left' hletters]

/-- A half of the day that is read has two letters. -/
theorem length_of_readHalf {cs rest : List Char} {n : Int} (h : readHalf cs = .ok (n, rest)) :
  rest.length + 2 = cs.length
  := by
  rw [readHalf] at h
  split_ifs at h with hshort ham hpm <;> cases h
  · have hlength := length_of_sameLetters ham
    rw [List.length_take, List.length_cons, List.length_cons, List.length_nil] at hlength
    rw [List.length_drop]
    omega
  · have hlength := length_of_sameLetters hpm
    rw [List.length_take, List.length_cons, List.length_cons, List.length_nil] at hlength
    rw [List.length_drop]
    omega

/-- The half of the day is read alike with any other ending. -/
theorem readHalf_ending {u v ending : List Char} {n : Int}
    (h : readHalf (u ++ ending) = .ok (n, v ++ ending)) (ending' : List Char) :
  readHalf (u ++ ending') = .ok (n, v ++ ending')
  := by
  have hlength := length_of_readHalf h
  rw [List.length_append, List.length_append] at hlength
  have hletters : (u.take 2).length = 2 := by
    rw [List.length_take]
    omega
  rw [← List.take_append_drop 2 u, List.append_assoc, readHalf_append hletters] at h ⊢
  split_ifs at h ⊢ with ham hpm <;>
    (obtain ⟨rfl, hdrop⟩ := Prod.mk.inj (Except.ok.inj h)
     rw [List.append_cancel_right hdrop])

/-! ### Items -/

namespace Item

/-- Whether the item reads an offset from UTC, in whatever form. -/
def readsOffset : Item → Bool
  | offset _ | looseOffset | dateTime => true
  | _ => false

theorem ne_dateTime {item : Item} (h : item.readsOffset = false) :
  item ≠ dateTime
  := by
  rintro rfl
  cases h

end Item

/-- A character with which nothing goes on that an item can read: it is no digit, no point and no
letter of a name. -/
def breaksOff (c : Char) : Bool :=
  !c.isDigit && c != '.' && (monthNames ++ weekdayNames).all fun name =>
    name.all fun d => d.toLower != c.toLower

/-- The ending goes on nothing that an item can read, even after blanks at its start. -/
structure Ending (ending : List Char) : Prop where
  head : ∀ c ∈ ending.head?, breaksOff c
  trimmed : ∀ c ∈ (trimStart ending).head?, breaksOff c

namespace Ending

variable {ending : List Char}

theorem digits (h : Ending ending) :
  EndsDigits ending
  := by
  intro c hc
  have hbreaks := h.head c hc
  simp only [breaksOff, Bool.and_eq_true, Bool.not_eq_true'] at hbreaks
  simp [hbreaks.1.1]

theorem point (h : Ending ending) (rest : List Char) :
  ending ≠ '.' :: rest
  := by
  rintro rfl
  cases h.head '.' rfl

theorem names (h : Ending ending) :
  EndsNames (monthNames ++ weekdayNames) ending
  := by
  intro c hc name hname d hd
  have hbreaks := h.head c hc
  simp only [breaksOff, Bool.and_eq_true, List.all_eq_true, bne_iff_ne] at hbreaks
  exact hbreaks.2 name hname d hd

/-- The blanks at the start of an ending can be removed. -/
theorem trimStart (h : Ending ending) :
  Ending (LogFormat.trimStart ending)
  := by
  refine ⟨h.trimmed, ?_⟩
  rw [LogFormat.trimStart, LogFormat.trimStart, List.dropWhile_idempotent]
  exact h.trimmed

end Ending

/-- What is left of a text with an ending: a text with the ending, or when nothing is left before
the ending, maybe the ending without the blanks at its start. -/
def Leaves (rest v ending : List Char) : Prop :=
  rest = v ++ ending ∨ v = [] ∧ rest = trimStart ending

/-- A text that has been read as literal text begins with it. -/
theorem eq_append_of_readLiteral {text u v ending : List Char}
    (h : readLiteral text (u ++ ending) = .ok ((), v ++ ending)) :
  u = text ++ v
  := by
  rw [readLiteral] at h
  split_ifs at h with hshort hprefix
  obtain ⟨rest, hrest⟩ := List.isPrefixOf_iff_prefix.1 hprefix
  obtain ⟨-, hdrop⟩ := Prod.mk.inj (Except.ok.inj h)
  rw [← hrest, List.drop_left] at hdrop
  rw [hdrop, ← List.append_assoc] at hrest
  exact (List.append_cancel_right hrest).symm

namespace Item

/-- Without a point, a part of a second is left out. -/
theorem readSimple_fraction {precision : Option Precision} {f : Fields} {cs : List Char}
    (h : ∀ rest, cs ≠ '.' :: rest) :
  (fraction precision).readSimple f cs = .ok (f, cs)
  := by
  rw [readSimple]
  exact h

/-- An item that reads a text up to its ending reads it alike with another ending. -/
theorem readSimple_ending {item : Item} (hitem : item.readsOffset = false)
    {u v ending ending' : List Char} (hending : Ending ending)
    (hblank : ∀ c ∈ ending.head?, ¬isBlank c) (hzone : item = zoneName → ending ≠ [])
    (hending' : Ending ending') {f f' : Fields}
    (h : item.readSimple f (u ++ ending) = .ok (f', v ++ ending)) :
  ∃ rest, item.readSimple f (u ++ ending') = .ok (f', rest) ∧ Leaves rest v ending'
  := by
  cases item with
  | dateTime | offset | looseOffset => cases hitem
  | literal text =>
    obtain ⟨⟨⟨⟩, rest⟩, hread, hrest⟩ := bind_eq_ok.1 h
    cases hrest
    obtain rfl := eq_append_of_readLiteral hread
    refine ⟨v ++ ending', ?_, .inl rfl⟩
    rw [readSimple, List.append_assoc, readLiteral_append]
    rfl
  | space text =>
    obtain ⟨rfl, hrest⟩ := Prod.mk.inj (Except.ok.inj h)
    refine ⟨trimStart (u ++ ending'), rfl, ?_⟩
    by_cases hu : ∀ c ∈ u, isBlank c
    · rw [trimStart_append_of_blank hu, trimStart_of_head hblank] at hrest
      obtain rfl := List.self_eq_append_left.1 hrest
      exact .inr ⟨rfl, trimStart_append_of_blank hu ending'⟩
    · rw [trimStart_append hu] at hrest ⊢
      rw [List.append_cancel_right hrest]
      exact .inl rfl
  | number q pad =>
    obtain ⟨n, hread, hstore⟩ := reading_eq_ok (q.store f) h
    by_cases hu : ∀ c ∈ u, isBlank c
    · -- The number would have been read from the ending.
      rw [trimStart_append_of_blank hu, trimStart_of_head hblank] at hread
      have hlength := q.length_of_readNumber hread
      rw [List.length_append] at hlength
      omega
    · have hne : trimStart u ≠ [] := by
        rwa [trimStart, ne_eq, List.dropWhile_eq_nil_iff]
      rw [trimStart_append hu] at hread
      obtain ⟨v', hv, -, hother⟩ := Quantity.readNumber_ending hne hending.digits hread
      obtain rfl := List.append_cancel_right hv
      have hread' := hother ending' hending'.digits
      rw [← trimStart_append hu] at hread'
      exact ⟨_, Step.reading_of_ok hread' _ hstore, .inl rfl⟩
  | monthName form =>
    obtain ⟨n, hread, hstore⟩ := reading_eq_ok (fun n => f.put .month (n + 1)) h
    have hother := readName_ending (by decide) (fun c hc name hname =>
      hending'.names c hc name (List.mem_append_left _ hname)) hread
    exact ⟨_, Step.reading_of_ok hother (fun n => f.put .month (n + 1)) hstore, .inl rfl⟩
  | weekdayName form =>
    obtain ⟨n, hread, hstore⟩ := reading_eq_ok (f.put .weekday) h
    have hother := readName_ending (by decide) (fun c hc name hname =>
      hending'.names c hc name (List.mem_append_right _ hname)) hread
    exact ⟨_, Step.reading_of_ok hother _ hstore, .inl rfl⟩
  | halfDay upper =>
    obtain ⟨n, hread, hstore⟩ := reading_eq_ok (f.put .half) h
    exact ⟨_, Step.reading_of_ok (readHalf_ending hread ending') _ hstore, .inl rfl⟩
  | fraction precision =>
    cases u with
    | nil =>
      rw [List.nil_append, readSimple_fraction hending.point] at h
      obtain ⟨rfl, hrest⟩ := Prod.mk.inj (Except.ok.inj h)
      obtain rfl := List.self_eq_append_left.1 hrest
      exact ⟨ending', readSimple_fraction hending'.point, .inl rfl⟩
    | cons c u =>
      by_cases hpoint : c = '.'
      · subst hpoint
        have hpart : ∃ n, readPart precision (u ++ ending) = .ok (n, v ++ ending)
            ∧ f.put .nanosecond n = .ok f' := by
          cases precision <;> exact reading_eq_ok (f.put .nanosecond) h
        obtain ⟨n, hread, hstore⟩ := hpart
        obtain ⟨v', hv, hother⟩ := readPart_ending hending.digits hread
        obtain rfl := List.append_cancel_right hv
        refine ⟨v ++ ending', ?_, .inl rfl⟩
        cases precision <;>
          exact Step.reading_of_ok (hother ending' hending'.digits) (f.put .nanosecond) hstore
      · have hother : ∀ ending : List Char, ∀ rest, c :: u ++ ending ≠ '.' :: rest := by
          rintro ending rest ⟨⟩
          exact hpoint rfl
        rw [readSimple_fraction (hother ending)] at h
        obtain ⟨rfl, hrest⟩ := Prod.mk.inj (Except.ok.inj h)
        obtain rfl := List.append_cancel_right hrest
        exact ⟨_, readSimple_fraction (hother ending'), .inl rfl⟩
  | fractionDigits p =>
    obtain ⟨n, hread, hstore⟩ := reading_eq_ok (f.put .nanosecond) h
    obtain ⟨v', hv, -, hother⟩ := readFractionDigits_ending hending.digits hread
    obtain rfl := List.append_cancel_right hv
    exact ⟨_, Step.reading_of_ok (hother ending' hending'.digits) _ hstore, .inl rfl⟩
  | zoneName =>
    obtain ⟨rfl, hrest⟩ := Prod.mk.inj (Except.ok.inj h)
    have hu : ¬((u.dropWhile fun c => !isBlank c).isEmpty) := by
      -- The name would go on in the ending, which does not begin with a blank.
      intro hu
      rw [List.isEmpty_iff, List.dropWhile_eq_nil_iff] at hu
      rw [List.dropWhile_append_of_pos hu] at hrest
      obtain ⟨c, ending, rfl⟩ := List.exists_cons_of_ne_nil (hzone rfl)
      rw [List.dropWhile_cons_of_pos (by simpa using hblank c rfl)] at hrest
      have hlength := (List.dropWhile_suffix (l := ending) fun c => !isBlank c).length_le
      rw [hrest, List.length_append, List.length_cons] at hlength
      omega
    rw [List.dropWhile_append, if_neg hu] at hrest
    refine ⟨_, rfl, .inl ?_⟩
    rw [List.dropWhile_append, if_neg hu, List.append_cancel_right hrest]

/-- An item leaves the end of a text. -/
theorem suffix_of_readSimple {item : Item} (hitem : item.readsOffset = false) {f f' : Fields}
    {cs rest : List Char} (h : item.readSimple f cs = .ok (f', rest)) :
  rest <:+ cs
  := by
  cases item with
  | dateTime | offset | looseOffset => cases hitem
  | literal text =>
    obtain ⟨⟨⟨⟩, rest'⟩, hread, hrest⟩ := bind_eq_ok.1 h
    cases hrest
    rw [readLiteral] at hread
    split_ifs at hread
    cases hread
    exact List.drop_suffix _ _
  | space text | zoneName =>
    cases h
    exact List.dropWhile_suffix _
  | number q pad =>
    obtain ⟨n, hread, -⟩ := reading_eq_ok (q.store f) h
    exact (q.suffix_of_readNumber hread).trans (List.dropWhile_suffix _)
  | monthName form =>
    obtain ⟨n, hread, -⟩ := reading_eq_ok (fun n => f.put .month (n + 1)) h
    exact suffix_of_readName hread
  | weekdayName form =>
    obtain ⟨n, hread, -⟩ := reading_eq_ok (f.put .weekday) h
    exact suffix_of_readName hread
  | halfDay upper =>
    obtain ⟨n, hread, -⟩ := reading_eq_ok (f.put .half) h
    rw [readHalf] at hread
    split_ifs at hread <;>
      (cases hread
       exact List.drop_suffix _ _)
  | fraction precision =>
    by_cases hpoint : ∃ rest', cs = '.' :: rest'
    · obtain ⟨cs, rfl⟩ := hpoint
      have hpart : ∃ n, readPart precision cs = .ok (n, rest) := by
        cases precision <;>
          (obtain ⟨n, hread, -⟩ := reading_eq_ok (f.put .nanosecond) h
           exact ⟨n, hread⟩)
      obtain ⟨n, hread⟩ := hpart
      exact (suffix_of_readPart hread).trans (List.suffix_cons _ _)
    · rw [readSimple_fraction (fun rest' heq => hpoint ⟨rest', heq⟩)] at h
      cases h
      exact List.suffix_refl _
  | fractionDigits p =>
    obtain ⟨n, hread, -⟩ := reading_eq_ok (f.put .nanosecond) h
    exact suffix_of_readFractionDigits hread

/-- An item that reads a text up to its ending reads what is left of a text with another ending. -/
theorem readSimple_leaves {item : Item} (hitem : item.readsOffset = false)
    {u v ending ending' cs : List Char} (hending : Ending ending)
    (hblank : ∀ c ∈ ending.head?, ¬isBlank c) (hzone : item = zoneName → ending ≠ [])
    (hending' : Ending ending') (hcs : Leaves cs u ending') {f f' : Fields}
    (h : item.readSimple f (u ++ ending) = .ok (f', v ++ ending)) :
  ∃ rest, item.readSimple f cs = .ok (f', rest) ∧ Leaves rest v ending'
  := by
  obtain rfl | ⟨rfl, rfl⟩ := hcs
  · exact readSimple_ending hitem hending hblank hzone hending' h
  · have hlength := (suffix_of_readSimple hitem h).length_le
    rw [List.length_append, List.length_append, List.length_nil] at hlength
    obtain rfl : v = [] := List.eq_nil_of_length_eq_zero (by omega)
    obtain ⟨rest, hread, hrest⟩ :=
      readSimple_ending hitem hending hblank hzone hending'.trimStart h
    refine ⟨rest, hread, .inr ⟨rfl, ?_⟩⟩
    obtain rfl | ⟨-, rfl⟩ := hrest
    · rfl
    · rw [trimStart, trimStart, List.dropWhile_idempotent]

/-- Items leave the end of a text. -/
theorem suffix_of_foldlM {items : List Item} (hitems : ∀ item ∈ items, item.readsOffset = false)
    {f f' : Fields} {cs rest : List Char}
    (h : items.foldlM (fun (f, cs) item => item.read f cs) (f, cs) = .ok (f', rest)) :
  rest <:+ cs
  := by
  induction items generalizing f cs with
  | nil =>
    cases h
    exact List.suffix_refl _
  | cons item items ih =>
    obtain ⟨hitem, hitems⟩ := List.forall_mem_cons.1 hitems
    rw [List.foldlM_cons] at h
    obtain ⟨⟨f₁, cs₁⟩, hread, h⟩ := bind_eq_ok.1 h
    simp only [read_of_ne (ne_dateTime hitem)] at hread
    exact (ih hitems h).trans (suffix_of_readSimple hitem hread)

/-- Items that read a text up to its ending fill the same slots from what is left of a text with
another ending, and leave that ending. -/
theorem foldlM_leaves {items : List Item} (hitems : ∀ item ∈ items, item.readsOffset = false)
    {u v ending ending' cs : List Char} (hending : Ending ending)
    (hblank : ∀ c ∈ ending.head?, ¬isBlank c) (hzone : zoneName ∈ items → ending ≠ [])
    (hending' : Ending ending') (hcs : Leaves cs u ending') {f f' : Fields}
    (h : items.foldlM (fun (f, cs) item => item.read f cs) (f, u ++ ending)
      = .ok (f', v ++ ending)) :
  ∃ rest, items.foldlM (fun (f, cs) item => item.read f cs) (f, cs) = .ok (f', rest)
    ∧ Leaves rest v ending'
  := by
  induction items generalizing f u cs with
  | nil =>
    obtain ⟨rfl, huv⟩ := Prod.mk.inj (Except.ok.inj h)
    rw [List.append_cancel_right huv] at hcs
    exact ⟨cs, rfl, hcs⟩
  | cons item items ih =>
    obtain ⟨hitem, hitems⟩ := List.forall_mem_cons.1 hitems
    rw [List.foldlM_cons] at h
    obtain ⟨⟨f₁, cs₁⟩, hread, h⟩ := bind_eq_ok.1 h
    simp only [read_of_ne (ne_dateTime hitem)] at hread
    -- What the item leaves still has the ending, as the last item leaves it.
    obtain ⟨w, rfl⟩ := suffix_of_foldlM hitems h
    rw [← List.append_assoc] at hread h
    obtain ⟨rest, hread', hrest⟩ := readSimple_leaves hitem hending hblank
      (fun heq => hzone (heq ▸ List.mem_cons_self)) hending' hcs hread
    obtain ⟨rest', hread'', hrest'⟩ :=
      ih hitems (fun hmem => hzone (List.mem_cons_of_mem _ hmem)) hrest h
    refine ⟨rest', ?_, hrest'⟩
    rw [List.foldlM_cons]
    exact bind_eq_ok.2 ⟨_, (read_of_ne (ne_dateTime hitem) f cs).trans hread', hread''⟩

end Item

/-- Items that read a text up to its ending fill the same slots from the text with another ending,
and leave that ending. -/
theorem readItems_ending {items : List Item} (hitems : ∀ item ∈ items, item.readsOffset = false)
    {u v ending ending' : List Char} (hending : Ending ending)
    (hblank : ∀ c ∈ ending.head?, ¬isBlank c) (hzone : .zoneName ∈ items → ending ≠ [])
    (hending' : Ending ending') {f : Fields}
    (h : readItems items (u ++ ending) = .ok (f, v ++ ending)) :
  ∃ rest, readItems items (u ++ ending') = .ok (f, rest) ∧ Leaves rest v ending'
  :=
  Item.foldlM_leaves hitems hending hblank hzone hending' (.inl rfl) h

end LogFormat
