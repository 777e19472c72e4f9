import LogFormat.Proofs.Text.Separators
import LogFormat.Text.Decimal
import Mathlib.Algebra.Group.Nat.Defs
import Mathlib.Data.List.Induction

/-!
# Written numbers

A number that is written with leading zeros to a width is so many digits
(`length_padded`, `isDigit_of_mem_padded`), which denote the number
(`digitsValue_padded`).
-/

namespace LogFormat

/-- The value of digits, as the library folds them. -/
theorem digitsValue_eq (ds : List Char) :
  digitsValue ds = Nat.ofDigitChars 10 ds 0
  := rfl

theorem digitsValue_append (ds es : List Char) :
  digitsValue (ds ++ es) = 10 ^ es.length * digitsValue ds + digitsValue es
  := by
  rw [digitsValue_eq, Nat.ofDigitChars_append, Nat.ofDigitChars_eq_ofDigitChars_zero]
  rfl

theorem digitsValue_singleton (d : Char) :
  digitsValue [d] = d.toNat - 48
  := by
  simp [digitsValue]

/-- Digits denote a number that is below the power of ten of their number. -/
theorem digitsValue_lt {ds : List Char} (h : ds.all Char.isDigit) :
  digitsValue ds < 10 ^ ds.length
  := by
  induction ds using List.reverseRecOn with
  | nil => decide
  | append_singleton ds d ih =>
    simp only [List.all_append, List.all_cons, List.all_nil, Bool.and_true,
      Bool.and_eq_true] at h
    have hds := ih h.1
    have hd : 48 ≤ d.toNat ∧ d.toNat ≤ 57 := Char.isDigit_iff_toNat.1 h.2
    rw [digitsValue_append, List.length_append, List.length_singleton, digitsValue_singleton,
      Nat.pow_succ]
    omega

/-- The digits of a number denote it. -/
theorem digitsValue_toDigits (n : Nat) :
  digitsValue (Nat.toDigits 10 n) = n
  := by
  rw [digitsValue_eq, Nat.ofDigitChars_ten_toDigits]

/-- A padded number denotes the number. -/
theorem digitsValue_padded (width n : Nat) :
  digitsValue (padded width n) = n
  := by
  rw [digitsValue_eq, padded, Nat.ofDigitChars_append, Nat.ofDigitChars_replicate_zero,
    Nat.mul_zero, Nat.ofDigitChars_ten_toDigits]

/-- A number that fits in the width has as many digits. -/
theorem length_padded {width n : Nat} (hwidth : 0 < width) (h : n < 10 ^ width) :
  (padded width n).length = width
  := by
  have hle := (Nat.length_toDigits_le_iff (b := 10) (by decide) hwidth).2 h
  rw [padded, List.length_append, List.length_replicate]
  omega

theorem isDigit_of_mem_toDigits {n : Nat} {c : Char} (h : c ∈ Nat.toDigits 10 n) :
  c.isDigit
  := by
  apply Nat.isDigit_of_mem_toDigits (by decide) (by decide) h

theorem isDigit_of_mem_padded {width n : Nat} {c : Char} (h : c ∈ padded width n) :
  c.isDigit
  := by
  rcases List.mem_append.1 h with h | h
  · rw [List.eq_of_mem_replicate h]
    decide
  · apply isDigit_of_mem_toDigits h

/-- A padded number begins with a digit. -/
theorem exists_padded_eq_cons {width n : Nat} (hwidth : 0 < width) (h : n < 10 ^ width) :
  ∃ c cs, padded width n = c :: cs ∧ c.isDigit
  := by
  cases hpadded : padded width n with
  | nil =>
    have hlength := length_padded hwidth h
    rw [hpadded, List.length_nil] at hlength
    omega
  | cons c cs =>
    exact ⟨c, cs, rfl, isDigit_of_mem_padded (hpadded ▸ List.mem_cons_self)⟩

/-- As many digits that denote the same number are the same digits. -/
theorem eq_of_digitsValue_eq {ds es : List Char} (hds : ∀ c ∈ ds, c.isDigit)
    (hes : ∀ c ∈ es, c.isDigit) (hlength : ds.length = es.length)
    (h : digitsValue ds = digitsValue es) :
  ds = es
  := by
  induction ds using List.reverseRecOn generalizing es with
  | nil => exact (List.length_eq_zero_iff.1 hlength.symm).symm
  | append_singleton ds d ih =>
    rcases List.eq_nil_or_concat es with rfl | ⟨es, e, rfl⟩
    · simp at hlength
    · have hd : 48 ≤ d.toNat ∧ d.toNat ≤ 57 := Char.isDigit_iff_toNat.1 (hds d (by simp))
      have he : 48 ≤ e.toNat ∧ e.toNat ≤ 57 := Char.isDigit_iff_toNat.1 (hes e (by simp))
      rw [List.concat_eq_append, digitsValue_append, digitsValue_append, List.length_singleton,
        List.length_singleton, digitsValue_singleton, digitsValue_singleton] at h
      have hchar : d = e := Char.toNat_inj.1 (by omega)
      have hinit : ds = es := by
        apply ih
        · exact fun c hc => hds c (by simp [hc])
        · exact fun c hc => hes c (by simp [hc])
        · simpa using hlength
        · omega
      rw [hinit, hchar, List.concat_eq_append]

/-- Digits are what their number is padded to. -/
theorem padded_digitsValue {ds : List Char} (hds : ∀ c ∈ ds, c.isDigit) (hne : ds ≠ []) :
  padded ds.length (digitsValue ds) = ds
  := by
  have hlength := length_padded (List.length_pos_iff.2 hne)
    (digitsValue_lt (List.all_eq_true.2 hds))
  apply eq_of_digitsValue_eq (fun _ => isDigit_of_mem_padded) hds hlength
  apply digitsValue_padded

/-- No digit stands at the front of a text. -/
def EndsDigits (rest : List Char) : Prop :=
  ∀ c ∈ rest.head?, ¬c.isDigit

/-- Digits end where no digit follows. -/
theorem span_digits {ds rest : List Char} (hds : ∀ c ∈ ds, c.isDigit) (hrest : EndsDigits rest) :
  (ds ++ rest).takeWhile Char.isDigit = ds ∧ (ds ++ rest).dropWhile Char.isDigit = rest
  :=
  span_append_ending hds hrest

/-- Digits are read as the number that they denote, if it fits. -/
theorem readInteger?_of_digits {ds : List Char} (hne : ds ≠ []) (hdigits : ∀ c ∈ ds, c.isDigit)
    (hmax : (digitsValue ds : Int) ≤ maxInteger) :
  readInteger? ds = some (digitsValue ds : Int)
  := by
  have hnat : readNat? ds = some (digitsValue ds) := by
    rw [readNat?, if_pos ⟨hne, List.all_eq_true.2 hdigits⟩]
  have hmin : minInteger ≤ (digitsValue ds : Int) := by
    rw [minInteger]
    omega
  rw [readInteger?]
  · simp [hnat, hmin, hmax]
  · rintro _ rfl
    apply absurd (hdigits '-' (by simp)) (by decide)
  · rintro _ rfl
    apply absurd (hdigits '+' (by simp)) (by decide)

/-- Digits of a number that does not fit are refused. -/
theorem readInteger?_eq_none {ds : List Char} (hdigits : ∀ c ∈ ds, c.isDigit)
    (hmax : maxInteger < (digitsValue ds : Int)) :
  readInteger? ds = none
  := by
  have hne : ds ≠ [] := by
    rintro rfl
    cases hmax
  have hnat : readNat? ds = some (digitsValue ds) := by
    rw [readNat?, if_pos ⟨hne, List.all_eq_true.2 hdigits⟩]
  rw [readInteger?]
  · simp only [hnat, Option.filter_eq_none_iff]
    intro v hv
    cases hv
    simpa using fun _ => hmax
  · rintro _ rfl
    apply absurd (hdigits '-' (by simp)) (by decide)
  · rintro _ rfl
    apply absurd (hdigits '+' (by simp)) (by decide)

/-- Digits after an optional `+` are read as the number that they denote, if it fits. -/
theorem readSize?_eq_some_iff {cs : List Char} {n : Nat} :
  readSize? cs = some n
    ↔ ∃ digits, (cs = digits ∨ cs = '+' :: digits)
      ∧ digits ≠ [] ∧ (∀ c ∈ digits, c.isDigit) ∧ digitsValue digits = n ∧ n ≤ maxSize
  := by
  have hread : ∀ digits, (readNat? digits).filter (· ≤ maxSize) = some n
      ↔ digits ≠ [] ∧ (∀ c ∈ digits, c.isDigit) ∧ digitsValue digits = n ∧ n ≤ maxSize := by
    intro digits
    rw [readNat?, ← List.all_eq_true (p := Char.isDigit)]
    split_ifs with h
    · simp [Option.filter_eq_some_iff, h]
    · simp only [Option.filter_none, reduceCtorEq, false_iff]
      exact fun h' => h ⟨h'.1, h'.2.1⟩
  by_cases hplus : ∃ ds, cs = '+' :: ds
  · obtain ⟨ds, rfl⟩ := hplus
    rw [readSize?, hread]
    constructor
    · exact fun h => ⟨ds, .inr rfl, h⟩
    · rintro ⟨digits, rfl | hdigits, h⟩
      · exact absurd (h.2.1 '+' List.mem_cons_self) (by decide)
      · rwa [(List.cons.inj hdigits).2]
  · have hvalue : readSize? cs = (readNat? cs).filter (· ≤ maxSize) := by
      rw [readSize?]
      rintro ds rfl
      exact hplus ⟨ds, rfl⟩
    rw [hvalue, hread]
    constructor
    · exact fun h => ⟨cs, .inl rfl, h⟩
    · rintro ⟨digits, rfl | rfl, h⟩
      · exact h
      · exact absurd ⟨digits, rfl⟩ hplus

end LogFormat
