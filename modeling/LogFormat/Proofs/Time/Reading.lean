import LogFormat.Proofs.Text.Blanks
import LogFormat.Proofs.Text.Bytes
import LogFormat.Proofs.Text.Decimal
import LogFormat.Time.Reading
import Mathlib.Data.List.Basic
import Mathlib.Data.List.TakeWhile

/-!
# Reading what has been written

Numbers with leading zeros, the short names of months, single characters and offsets of
whole minutes are read from the front of a text as what they were written from, and what
stands after them is left.
-/

namespace LogFormat

/-- Digits are not blank. -/
theorem not_isBlank_of_isDigit {c : Char} (h : c.isDigit) :
  ¬isBlank c
  := by
  have hc : 48 ≤ c.toNat ∧ c.toNat ≤ 57 := Char.isDigit_iff_toNat.1 h
  simp only [isBlank, Bool.or_eq_true, Bool.and_eq_true, decide_eq_true_eq, beq_iff_eq]
  omega

/-- The text does not have fewer bytes than it has characters. -/
theorem shorterThan_of_length_le {n : Nat} {cs : List Char} (h : n ≤ cs.length) :
  shorterThan n cs = false
  := by
  have htake := length_le_utf8Length (cs.take n)
  rw [List.length_take, Nat.min_eq_left h] at htake
  simpa [shorterThan] using htake

/-! ### Numbers -/

/-- Digits of a known number are read up to a bound on how many there are. -/
theorem readDigits_of_length {least : Nat} (ds : List Char) (hdigits : ∀ c ∈ ds, c.isDigit)
    (hleast : least ≤ ds.length) (hmax : (digitsValue ds : Int) ≤ maxInteger)
    (rest : List Char) :
  readDigits least (some ds.length) (ds ++ rest) = .ok ((digitsValue ds : Int), rest)
  := by
  have hshort : shorterThan least (ds ++ rest) = false :=
    shorterThan_of_length_le (by rw [List.length_append]; omega)
  have htake : ((ds ++ rest).take ds.length).takeWhile Char.isDigit = ds := by
    rw [List.take_left, List.takeWhile_eq_self_iff.2 hdigits]
  rw [readDigits, hshort]
  simp only [htake, List.drop_left, Bool.false_eq_true, if_false]
  rw [if_neg (by omega), if_neg (by omega)]

/-- A padded number is read up to its width. -/
theorem readDigits_padded {width n : Nat} (hwidth : 0 < width) (hwidth' : width ≤ 18)
    (h : n < 10 ^ width) (rest : List Char) :
  readDigits 1 (some width) (padded width n ++ rest) = .ok ((n : Int), rest)
  := by
  have hlength := length_padded hwidth h
  have hpow : 10 ^ width ≤ 10 ^ 18 := Nat.pow_le_pow_right (by decide) hwidth'
  have hread := readDigits_of_length (padded width n)
    (fun _ => isDigit_of_mem_padded) (Nat.lt_of_lt_of_eq hwidth hlength.symm)
    (by rw [digitsValue_padded, maxInteger]; omega) rest
  rw [hlength, digitsValue_padded] at hread
  apply hread

/-- A quantity that is written with its width is read as the number. -/
theorem Quantity.readNumber_padded {q : Quantity} {width n : Nat} (hq : q.width = some width)
    (hwidth : 0 < width) (hwidth' : width ≤ 18) (h : n < 10 ^ width) (rest : List Char) :
  q.readNumber (padded width n ++ rest) = .ok ((n : Int), rest)
  := by
  have hread := readDigits_padded hwidth hwidth' h rest
  rw [readNumber, hq]
  split
  · obtain ⟨c, cs, hcons, hdigit⟩ := exists_padded_eq_cons hwidth h
    rw [Option.getD_some]
    rw [hcons] at hread ⊢
    rw [List.cons_append, readSigned]
    · apply hread
    · rintro _ ⟨⟩
      apply absurd hdigit (by decide)
    · rintro _ ⟨⟩
      apply absurd hdigit (by decide)
  · apply hread

/-- A number item reads a quantity that is written with its width. -/
theorem Item.read_number {q : Quantity} {width n : Nat} {f f' : Fields}
    (hq : q.width = some width) (hwidth : 0 < width) (hwidth' : width ≤ 18)
    (h : n < 10 ^ width) (hstore : q.store f n = .ok f') (pad : Pad) (rest : List Char) :
  (number q pad).read f (padded width n ++ rest) = .ok (f', rest)
  := by
  obtain ⟨c, cs, hcons, hdigit⟩ := exists_padded_eq_cons hwidth h
  have htrim : trimStart (padded width n ++ rest) = padded width n ++ rest := by
    rw [hcons, List.cons_append, trimStart_cons (not_isBlank_of_isDigit hdigit)]
  simp only [read, readSimple, htrim, q.readNumber_padded hq hwidth hwidth' h, bind,
    Except.bind, hstore]

/-! ### Characters and names -/

/-- A literal character is read. -/
theorem Item.read_char (c : Char) (f : Fields) (rest : List Char) :
  (Item.char c).read f (c :: rest) = .ok (f, rest)
  := by
  have hlength : ¬utf8Length (c :: rest) < utf8Length [c] := by
    simp
  simp only [Item.char, read, readSimple, readLiteral, if_neg hlength]
  simp [List.isPrefixOf, bind, Except.bind]

/-- The short name of a month, counted from 0. -/
def shortMonth (i : Nat) : List Char :=
  (monthNames.getD i []).take 3

/-- The short name of a month is read as its number. -/
theorem readName_shortMonth {i : Nat} (h : i < 12) (rest : List Char) :
  readName monthNames .short (shortMonth i ++ rest) = .ok ((i : Int), rest)
  := by
  have hname : (shortMonth i).length = 3 ∧ (monthNames.findIdx? fun name =>
      Offset.sameLetters (name.take 3) (shortMonth i)) = some i := by
    have hall : ∀ i < 12, (shortMonth i).length = 3 ∧ (monthNames.findIdx? fun name =>
        Offset.sameLetters (name.take 3) (shortMonth i)) = some i := by decide
    apply hall i h
  have hshort : shorterThan 3 (shortMonth i ++ rest) = false :=
    shorterThan_of_length_le (by rw [List.length_append]; omega)
  have htake : (shortMonth i ++ rest).take 3 = shortMonth i := List.take_left' hname.1
  have hdrop : (shortMonth i ++ rest).drop 3 = rest := List.drop_left' hname.1
  rw [readName, hshort]
  simp only [htake, hdrop, hname.2, Bool.false_eq_true, if_false]

/-- The short name of a month fills the slot of the month. -/
theorem Item.read_shortMonth {i : Nat} (h : i < 12) {f f' : Fields}
    (hput : f.put .month (i + 1) = .ok f') (rest : List Char) :
  (monthName .short).read f (shortMonth i ++ rest) = .ok (f', rest)
  := by
  simp only [read, readSimple, readName_shortMonth h, bind, Except.bind, hput]

/-! ### Offsets -/

/-- The text of an offset: its sign, and the hours and minutes of its size. -/
def Offset.text (o : Offset) : List Char :=
  (if o.seconds < 0 then '-' else '+') :: (padded 2 (o.seconds.natAbs / 3600)
    ++ padded 2 (o.seconds.natAbs / 60 % 60))

/-- A number of two digits is written with two. -/
theorem exists_padded_two {n : Nat} (h : n < 100) :
  ∃ a b, padded 2 n = [a, b] ∧ a.isDigit ∧ b.isDigit ∧ digitsValue [a, b] = n
  := by
  obtain ⟨a, b, hpadded⟩ := List.length_eq_two.1 (length_padded (by decide : 0 < 2) h)
  have hdigits : ∀ c ∈ [a, b], c.isDigit := fun c hc =>
    isDigit_of_mem_padded (hpadded ▸ hc)
  have hvalue := digitsValue_padded 2 n
  rw [hpadded] at hvalue
  exact ⟨a, b, hpadded, hdigits a (by simp), hdigits b (by simp), hvalue⟩

/-- Two digits are read as hours, and nothing is passed over before a further digit. -/
theorem readOffsetHours_padded {n : Nat} (h : n < 100) {c : Char} (hc : c.isDigit)
    (cs : List Char) :
  readOffsetHours (padded 2 n ++ c :: cs) = .ok ((n : Int), c :: cs)
  := by
  obtain ⟨a, b, hpadded, ha, hb, hvalue⟩ := exists_padded_two h
  have hshort : shorterThan 2 (a :: b :: c :: cs) = false :=
    shorterThan_of_length_le (by simp)
  have hkeep : (c :: cs).dropWhile (fun c => c == ':' || isBlank c) = c :: cs := by
    have hcolon : c ≠ ':' := by
      rintro rfl
      apply absurd hc (by decide)
    apply List.dropWhile_cons_of_neg
    simpa [hcolon] using not_isBlank_of_isDigit hc
  rw [hpadded, List.cons_append, List.cons_append, List.nil_append, readOffsetHours, hshort]
  simp only [ha, hb, Bool.and_self, Bool.false_eq_true, if_false, if_true,
    hkeep, hvalue]

/-- Two digits are read as minutes. -/
theorem readOffsetMinutes_padded {n : Nat} (h : n < 60) (cs : List Char) :
  readOffsetMinutes (padded 2 n ++ cs) = .ok ((n : Int), cs)
  := by
  obtain ⟨a, b, hpadded, ha, hb, hvalue⟩ := exists_padded_two (by omega : n < 100)
  have hshort : shorterThan 2 (a :: b :: cs) = false :=
    shorterThan_of_length_le (by simp)
  rw [hpadded, List.cons_append, List.cons_append, List.nil_append, readOffsetMinutes, hshort]
  simp only [ha, hb, Bool.and_self, Bool.false_eq_true, if_false, if_true, hvalue]
  rw [if_neg (by omega)]

/-- The text of an offset of whole minutes is read as the offset. -/
theorem readOffset_text {o : Offset} (h : o.seconds % 60 = 0) (rest : List Char) :
  readOffset false false (o.text ++ rest) = .ok (o.seconds, rest)
  := by
  have hbounds := o.bounds
  obtain ⟨c, cs, hcons, hdigit⟩ :=
    exists_padded_eq_cons (by decide : 0 < 2) (by omega : o.seconds.natAbs / 60 % 60 < 10 ^ 2)
  have hhours := readOffsetHours_padded (by omega : o.seconds.natAbs / 3600 < 100) hdigit
    (cs ++ rest)
  have hminutes := readOffsetMinutes_padded (by omega : o.seconds.natAbs / 60 % 60 < 60) rest
  have htext : padded 2 (o.seconds.natAbs / 3600) ++ padded 2 (o.seconds.natAbs / 60 % 60)
      ++ rest = padded 2 (o.seconds.natAbs / 3600) ++ c :: (cs ++ rest) := by
    rw [hcons, List.append_assoc, List.cons_append]
  rw [hcons, List.cons_append] at hminutes
  rw [Offset.text, List.cons_append, htext]
  split
  · next hneg =>
    have hvalue : (-1 : Int) * ((o.seconds.natAbs / 3600 : Nat) * 3600
        + (o.seconds.natAbs / 60 % 60 : Nat) * 60) = o.seconds := by omega
    simp only [readOffset, readOffsetSign, bind, Except.bind, hhours, hminutes, hvalue,
      Bool.false_and, Bool.false_eq_true, if_false]
  · next hpos =>
    have hvalue : (1 : Int) * ((o.seconds.natAbs / 3600 : Nat) * 3600
        + (o.seconds.natAbs / 60 % 60 : Nat) * 60) = o.seconds := by omega
    simp only [readOffset, readOffsetSign, bind, Except.bind, hhours, hminutes, hvalue,
      Bool.false_and, Bool.false_eq_true, if_false]

/-- The text of an offset does not begin with a blank. -/
theorem trimStart_text (o : Offset) (rest : List Char) :
  trimStart (o.text ++ rest) = o.text ++ rest
  := by
  rw [Offset.text, List.cons_append]
  apply trimStart_cons
  split <;> decide

/-- An offset item reads the text of an offset of whole minutes. -/
theorem Item.read_offset {o : Offset} (h : o.seconds % 60 = 0) {f f' : Fields}
    (hput : f.put .offset o.seconds = .ok f') (form : OffsetForm) (rest : List Char) :
  (offset form).read f (o.text ++ rest) = .ok (f', rest)
  := by
  simp only [read, readSimple, trimStart_text, readOffset_text h, bind, Except.bind, hput]

end LogFormat
