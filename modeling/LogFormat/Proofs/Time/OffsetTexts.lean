import LogFormat.Proofs.Directive.Words
import LogFormat.Proofs.Time.Reading

/-!
# The spellings of offsets

The sub-pattern of an offset from UTC lets through the letter Z, and a sign with two digits of
hours, after which there can be two of minutes and then two of seconds, each pair with a colon
before it or without (`OffsetSpelling.mem_language_iff`).  But of these spellings only those with
minutes and without seconds are read as an offset (`OffsetSpelling.plain_of_readOffset`), and they
are if they are in bounds (`OffsetSpelling.readOffset_of_plain`).
-/

namespace LogFormat

open Pattern

/-- A way to spell an offset from UTC; `behind` says that it is behind UTC, and `colon` and
`colon'` that there is a colon before the minutes and before the seconds. -/
inductive OffsetSpelling where
  | zulu
  | hours (behind : Bool) (hours : Nat)
  | minutes (behind : Bool) (hours : Nat) (colon : Bool) (minutes : Nat)
  | seconds (behind : Bool) (hours : Nat) (colon : Bool) (minutes : Nat) (colon' : Bool)
      (seconds : Nat)
deriving Repr, DecidableEq

namespace OffsetSpelling

/-- The sign of an offset. -/
def signText (behind : Bool) : Char :=
  if behind then '-' else '+'

/-- Two digits, maybe with a colon before them. -/
def pairText (colon : Bool) (n : Nat) : List Char :=
  (if colon then [':'] else []) ++ padded 2 n

/-- The text of a spelling. -/
def text : OffsetSpelling → List Char
  | zulu => ['Z']
  | hours behind h => signText behind :: padded 2 h
  | minutes behind h colon m => signText behind :: (padded 2 h ++ pairText colon m)
  | seconds behind h colon m colon' s =>
    signText behind :: (padded 2 h ++ (pairText colon m ++ pairText colon' s))

/-- The seconds by which a clock with the offset is ahead of UTC. -/
def value : OffsetSpelling → Int
  | zulu => 0
  | hours behind h => (if behind then -1 else 1) * (h * 3600)
  | minutes behind h _ m => (if behind then -1 else 1) * (h * 3600 + m * 60)
  | seconds behind h _ m _ s => (if behind then -1 else 1) * (h * 3600 + m * 60 + s)

/-- Whether all numbers of the spelling have at most two digits. -/
def TwoDigits : OffsetSpelling → Prop
  | zulu => True
  | hours _ h => h < 100
  | minutes _ h _ m => h < 100 ∧ m < 100
  | seconds _ h _ m _ s => h < 100 ∧ m < 100 ∧ s < 100

/-- Whether the spelling is one of less than 24 hours, with minutes and seconds below 60. -/
def InBounds : OffsetSpelling → Prop
  | zulu => True
  | hours _ h => h < 24
  | minutes _ h _ m => h < 24 ∧ m < 60
  | seconds _ h _ m _ s => h < 24 ∧ m < 60 ∧ s < 60

/-- Whether the spelling has hours and minutes and nothing else. -/
def isPlain : OffsetSpelling → Bool
  | minutes _ _ _ _ => true
  | _ => false

/-! ### Characters -/

/-- A spelling is the letter Z or a sign, and then digits and colons. -/
theorem exists_text_eq_cons (s : OffsetSpelling) :
  ∃ c ∈ ['Z', '+', '-'], ∃ rest, s.text = c :: rest ∧ ∀ d ∈ rest, d.isDigit ∨ d = ':'
  := by
  have hsign : ∀ behind, signText behind ∈ ['Z', '+', '-'] := by decide
  have hpadded : ∀ n, ∀ d ∈ padded 2 n, d.isDigit ∨ d = ':' := fun _ _ hd =>
    .inl (isDigit_of_mem_padded hd)
  have hpair : ∀ colon n, ∀ d ∈ pairText colon n, d.isDigit ∨ d = ':' := by
    intro colon n d hd
    obtain hd | hd := List.mem_append.1 hd
    · cases colon with
      | false => cases hd
      | true => exact .inr (List.mem_singleton.1 hd)
    · exact hpadded n d hd
  cases s with
  | zulu => exact ⟨'Z', by decide, [], rfl, by simp⟩
  | hours behind h => exact ⟨_, hsign behind, _, rfl, hpadded h⟩
  | minutes behind h colon m =>
    exact ⟨_, hsign behind, _, rfl, List.forall_mem_append.2 ⟨hpadded h, hpair colon m⟩⟩
  | seconds behind h colon m colon' n =>
    exact ⟨_, hsign behind, _, rfl, List.forall_mem_append.2 ⟨hpadded h,
      List.forall_mem_append.2 ⟨hpair colon m, hpair colon' n⟩⟩⟩

theorem text_ne_nil (s : OffsetSpelling) :
  s.text ≠ []
  := by
  obtain ⟨c, -, rest, htext, -⟩ := s.exists_text_eq_cons
  simp [htext]

/-- A spelling has no blanks. -/
theorem not_isBlank_of_mem (s : OffsetSpelling) :
  ∀ c ∈ s.text, ¬isBlank c
  := by
  obtain ⟨c, hc, rest, htext, hrest⟩ := s.exists_text_eq_cons
  have hsign : ¬isBlank c := by
    simp only [List.mem_cons, List.not_mem_nil, or_false] at hc
    rcases hc with rfl | rfl | rfl <;> decide
  rw [htext]
  refine List.forall_mem_cons.2 ⟨hsign, fun d hd => ?_⟩
  obtain hdigit | rfl := hrest d hd
  · exact not_isBlank_of_isDigit hdigit
  · decide

theorem not_isBlank_text (s : OffsetSpelling) :
  ∀ c ∈ s.text.head?, ¬isBlank c
  :=
  fun c hc => s.not_isBlank_of_mem c (List.mem_of_mem_head? hc)

/-! ### Sub-patterns -/

/-- The digits of a number below 100 are what two digits match. -/
theorem mem_language_two {w : List Char} :
  w ∈ (copies (one SubPattern.digits) 2).language ↔ ∃ n < 100, w = padded 2 n
  := by
  rw [mem_language_copies_one]
  simp only [SubPattern.has_digits]
  constructor
  · rintro ⟨hlength, hdigits⟩
    have hlt := digitsValue_lt (List.all_eq_true.2 hdigits)
    rw [hlength] at hlt
    refine ⟨digitsValue w, hlt, ?_⟩
    rw [← hlength, padded_digitsValue hdigits (List.ne_nil_of_length_eq_add_one hlength)]
  · rintro ⟨n, hn, rfl⟩
    exact ⟨length_padded (by decide) hn, fun _ => isDigit_of_mem_padded⟩

/-- Two digits, maybe with a colon before them, and what follows them. -/
theorem mem_language_pair {more : List Pattern} {w : List Char} :
  w ∈ (Item.twoDigits more).language
    ↔ ∃ colon, ∃ n < 100, ∃ rest ∈ (chain more).language, w = pairText colon n ++ rest
  := by
  rw [Item.twoDigits, language_sequence, List.cons_append, List.cons_append, List.nil_append]
  simp only [chain, List.foldr_cons, mem_language_seq, mem_language_optional,
    mem_language_single, mem_language_two]
  constructor
  · rintro ⟨u, hu, _, ⟨_, ⟨n, hn, rfl⟩, rest, hrest, rfl⟩, rfl⟩
    obtain rfl | rfl := hu
    · exact ⟨true, n, hn, rest, hrest, rfl⟩
    · exact ⟨false, n, hn, rest, hrest, rfl⟩
  · rintro ⟨colon, n, hn, rest, hrest, rfl⟩
    refine ⟨_, ?_, _, ⟨_, ⟨n, hn, rfl⟩, rest, hrest, rfl⟩, (List.append_assoc _ _ _).symm⟩
    cases colon
    · exact .inr rfl
    · exact .inl rfl

/-- A sign. -/
theorem mem_language_sign {w : List Char} :
  w ∈ (one Item.sign).language ↔ ∃ behind, w = [signText behind]
  := by
  have hsign : ∀ c, Item.sign.has c ↔ c = '+' ∨ c = '-' := by
    intro c
    rw [← Char.toNat_inj, ← Char.toNat_inj]
    simp only [Item.sign, CharSet.has, SetItem.has, List.any_cons, List.any_nil, Bool.or_false,
      Bool.bne_false, Bool.or_eq_true, Bool.and_eq_true, decide_eq_true_eq]
    omega
  simp only [mem_language_one, hsign]
  constructor
  · rintro ⟨c, rfl, rfl | rfl⟩
    · exact ⟨false, rfl⟩
    · exact ⟨true, rfl⟩
  · rintro ⟨behind, rfl⟩
    refine ⟨_, rfl, ?_⟩
    cases behind
    · exact .inl rfl
    · exact .inr rfl

/-- The sub-pattern of an offset describes the texts of the spellings. -/
theorem mem_language_iff {form : OffsetForm} {w : List Char} :
  w ∈ (chain (Item.offset form).patterns).language ↔ ∃ s : OffsetSpelling, s.TwoDigits ∧ w = s.text
  := by
  rw [Item.patterns, ← language_sequence, language_sequence_singleton, mem_language_either,
    language_sequence_singleton, mem_language_single, language_sequence]
  simp only [chain, List.foldr_cons, List.foldr_nil, mem_language_seq, mem_language_sign,
    mem_language_two, mem_language_optional, mem_language_pair, mem_language_empty]
  constructor
  · rintro (rfl | ⟨_, ⟨behind, rfl⟩, _, ⟨_, ⟨h, hh, rfl⟩, _, ⟨_, hmore, _, rfl, rfl⟩, rfl⟩, rfl⟩)
    · exact ⟨zulu, trivial, rfl⟩
    · obtain ⟨colon, m, hm, _, ⟨_, hmore, _, rfl, rfl⟩, rfl⟩ | rfl := hmore
      · obtain ⟨colon', n, hn, _, rfl, rfl⟩ | rfl := hmore
        · exact ⟨seconds behind h colon m colon' n, ⟨hh, hm, hn⟩, by simp [text]⟩
        · exact ⟨minutes behind h colon m, ⟨hh, hm⟩, by simp [text]⟩
      · exact ⟨hours behind h, hh, by simp [text]⟩
  · rintro ⟨s, hs, rfl⟩
    cases s with
    | zulu => exact .inl rfl
    | hours behind h =>
      exact .inr ⟨_, ⟨behind, rfl⟩, _, ⟨_, ⟨h, hs, rfl⟩, _, ⟨[], .inr rfl, _, rfl, rfl⟩, rfl⟩,
        by simp [text]⟩
    | minutes behind h colon m =>
      obtain ⟨hh, hm⟩ := hs
      exact .inr ⟨_, ⟨behind, rfl⟩, _, ⟨_, ⟨h, hh, rfl⟩, _, ⟨_, .inl ⟨colon, m, hm, _,
        ⟨[], .inr rfl, _, rfl, rfl⟩, rfl⟩, _, rfl, rfl⟩, rfl⟩, by simp [text]⟩
    | seconds behind h colon m colon' n =>
      obtain ⟨hh, hm, hn⟩ := hs
      exact .inr ⟨_, ⟨behind, rfl⟩, _, ⟨_, ⟨h, hh, rfl⟩, _, ⟨_, .inl ⟨colon, m, hm, _,
        ⟨_, .inl ⟨colon', n, hn, _, rfl, rfl⟩, _, rfl, rfl⟩, rfl⟩, _, rfl, rfl⟩, rfl⟩,
        by simp [text]⟩

/-! ### Reading -/

/-- A number of two digits is read as minutes if it is less than 60. -/
theorem readOffsetMinutes_two {n : Nat} (h : n < 100) (rest : List Char) :
  readOffsetMinutes (padded 2 n ++ rest)
    = if 60 ≤ n then .error .outOfRange else .ok ((n : Int), rest)
  := by
  split
  · next hle =>
    obtain ⟨a, b, hpadded, ha, hb, hvalue⟩ := exists_padded_two h
    have hshort : shorterThan 2 (a :: b :: rest) = false :=
      shorterThan_of_length_le (by simp)
    rw [hpadded, List.cons_append, List.cons_append, List.nil_append, readOffsetMinutes, hshort]
    simp only [ha, hb, Bool.and_self, Bool.false_eq_true, if_false, if_true, hvalue]
    rw [if_pos hle]
  · exact readOffsetMinutes_padded (by omega) rest

/-- What is read after the sign and the hours of an offset is its minutes, after any colons and
blanks. -/
theorem readOffset_sign (behind : Bool) {h : Nat} (hh : h < 100) (rest : List Char) :
  readOffset false false (signText behind :: (padded 2 h ++ rest))
    = (readOffsetMinutes (rest.dropWhile fun c => c == ':' || isBlank c)).map fun (m, rest) =>
        ((if behind then -1 else 1) * ((h : Int) * 3600 + m * 60), rest)
  := by
  have hsign : readOffsetSign (signText behind :: (padded 2 h ++ rest))
      = .ok (if behind then -1 else 1, padded 2 h ++ rest) := by
    cases behind <;> rfl
  have hhours : readOffsetHours (padded 2 h ++ rest)
      = .ok ((h : Int), rest.dropWhile fun c => c == ':' || isBlank c) := by
    obtain ⟨a, b, hpadded, ha, hb, hvalue⟩ := exists_padded_two hh
    have hshort : shorterThan 2 (a :: b :: rest) = false :=
      shorterThan_of_length_le (by simp)
    rw [hpadded, List.cons_append, List.cons_append, List.nil_append, readOffsetHours, hshort]
    simp only [ha, hb, Bool.and_self, Bool.false_eq_true, if_false, if_true, hvalue]
  rw [readOffset]
  · simp only [hsign, hhours, bind, Except.bind, Bool.false_and, Bool.false_eq_true, if_false]
    cases readOffsetMinutes (rest.dropWhile fun c => c == ':' || isBlank c) <;> rfl
  · simp
  · simp

/-- A colon before two digits is passed over. -/
theorem dropWhile_pairText {n : Nat} (h : n < 100) (colon : Bool) (rest : List Char) :
  (pairText colon n ++ rest).dropWhile (fun c => c == ':' || isBlank c) = padded 2 n ++ rest
  := by
  obtain ⟨c, cs, hcons, hdigit⟩ := exists_padded_eq_cons (by decide : 0 < 2) h
  have hkeep : ¬(c == ':' || isBlank c) := by
    have hcolon : c ≠ ':' := by
      rintro rfl
      cases hdigit
    simpa [hcolon] using not_isBlank_of_isDigit hdigit
  rw [pairText, hcons]
  cases colon with
  | false => exact List.dropWhile_cons_of_neg hkeep
  | true =>
    exact (List.dropWhile_cons_of_pos rfl).trans (List.dropWhile_cons_of_neg hkeep)

/-- Hours and minutes are read as the offset if the minutes are less than 60, and what follows them
is left. -/
theorem readOffset_minutes {h m : Nat} (hh : h < 100) (hm : m < 100) (behind colon : Bool)
    (rest : List Char) :
  readOffset false false (signText behind :: (padded 2 h ++ (pairText colon m ++ rest)))
    = if 60 ≤ m then .error .outOfRange else .ok ((minutes behind h colon m).value, rest)
  := by
  rw [readOffset_sign behind hh, dropWhile_pairText hm, readOffsetMinutes_two hm]
  by_cases hlarge : 60 ≤ m
  · rw [if_pos hlarge, if_pos hlarge]
    rfl
  · rw [if_neg hlarge, if_neg hlarge]
    rfl

/-- A spelling is only read to its end if it has hours and minutes and nothing else, and then it is
read as its offset. -/
theorem plain_of_readOffset {s : OffsetSpelling} (hs : s.TwoDigits) {n : Int}
    (h : readOffset false false s.text = .ok (n, [])) :
  s.isPlain ∧ n = s.value
  := by
  cases s with
  | zulu => cases h
  | hours behind hh =>
    have hread := readOffset_sign behind hs []
    rw [List.append_nil] at hread
    cases hread.symm.trans h
  | minutes behind hh colon m =>
    have hread := readOffset_minutes hs.1 hs.2 behind colon []
    rw [List.append_nil] at hread
    have heq := hread.symm.trans h
    split at heq <;> cases heq
    exact ⟨rfl, rfl⟩
  | seconds behind hh colon m colon' n =>
    have hread := readOffset_minutes hs.1 hs.2.1 behind colon (pairText colon' n)
    have heq := hread.symm.trans h
    have hlength := length_padded (by decide : 0 < 2) hs.2.2
    split at heq
    · cases heq
    · obtain ⟨-, hnil⟩ := Prod.mk.inj (Except.ok.inj heq)
      rw [(List.append_eq_nil_iff.1 hnil).2] at hlength
      cases hlength

/-- Hours and minutes in bounds are read as the offset. -/
theorem readOffset_of_plain {s : OffsetSpelling} (hs : s.InBounds) (hplain : s.isPlain) :
  readOffset false false s.text = .ok (s.value, [])
  := by
  cases s with
  | zulu | hours | seconds => cases hplain
  | minutes behind h colon m =>
    obtain ⟨hh, hm⟩ := hs
    have hread := readOffset_minutes (by omega : h < 100) (by omega : m < 100) behind colon []
    rw [List.append_nil, if_neg (by omega)] at hread
    exact hread

/-- A spelling in bounds has numbers of two digits. -/
theorem InBounds.twoDigits {s : OffsetSpelling} (h : s.InBounds) :
  s.TwoDigits
  := by
  cases s with
  | zulu => trivial
  | hours behind hh =>
    have hh : hh < 24 := h
    rw [TwoDigits]
    omega
  | minutes behind hh colon m =>
    obtain ⟨hh, hm⟩ := h
    rw [TwoDigits]
    omega
  | seconds behind hh colon m colon' s =>
    obtain ⟨hh, hm, hs⟩ := h
    rw [TwoDigits]
    omega

/-- The offset of a spelling in bounds is less than a day. -/
theorem InBounds.value_bounds {s : OffsetSpelling} (h : s.InBounds) :
  -86400 < s.value ∧ s.value < 86400
  := by
  cases s with
  | zulu => decide
  | hours behind hh =>
    have hh : hh < 24 := h
    rw [value]
    cases behind <;> simp <;> omega
  | minutes behind hh colon m =>
    obtain ⟨hh, hm⟩ := h
    rw [value]
    cases behind <;> simp <;> omega
  | seconds behind hh colon m colon' s =>
    obtain ⟨hh, hm, hs⟩ := h
    rw [value]
    cases behind <;> simp <;> omega

end OffsetSpelling

end LogFormat
