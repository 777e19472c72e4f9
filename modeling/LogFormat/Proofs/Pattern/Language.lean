import LogFormat.Pattern.Line
import Mathlib.Computability.Language

/-!
# The language of a pattern

`Pattern.language` is the set of texts that a pattern describes, said without any way of
finding a match.  The live places before a pattern are those from which a text of its
language leads to a place after it (`mem_live`), and from a live place `Pattern.follow`
takes such a text (`follow_spec`).  So a line has captures exactly if it is in the language
(`captures?_isSome_iff`).
-/

namespace LogFormat

/-! ### Texts between places -/

/-- The text between two places of a line. -/
def between (text : Array Char) (i j : Nat) : List Char :=
  (text.extract i j).toList

@[simp]
theorem between_self (text : Array Char) (i : Nat) :
  between text i i = []
  := by
  simp [between]

/-- The text between two places of a line has as many characters as there are places. -/
theorem length_between {text : Array Char} {i j : Nat} (h : j ≤ text.size) :
  (between text i j).length = j - i
  := by
  simp [between]
  omega

/-- The text between two places, followed by the text from the second to a third, is the
text from the first to the third. -/
theorem between_append {text : Array Char} {i j k : Nat} (hij : i ≤ j) (hjk : j ≤ k) :
  between text i j ++ between text j k = between text i k
  := by
  obtain ⟨a, rfl⟩ := Nat.exists_eq_add_of_le hij
  obtain ⟨b, rfl⟩ := Nat.exists_eq_add_of_le hjk
  simp only [between, Array.toList_extract, List.extract_eq_take_drop]
  rw [show i + a - i = a by omega, show i + a + b - (i + a) = b by omega,
    show i + a + b - i = a + b by omega, List.take_add, List.drop_drop]

/-- A text between two places that is put together from two parts is divided at a place
between them. -/
theorem between_eq_append {text : Array Char} {i k : Nat} {u v : List Char}
    (hik : i ≤ k) (hk : k ≤ text.size) (h : between text i k = u ++ v) :
  i + u.length ≤ k ∧ between text i (i + u.length) = u
    ∧ between text (i + u.length) k = v
  := by
  have hlen : u.length + v.length = k - i := by
    rw [← List.length_append, ← h, length_between hk]
  have hle : i + u.length ≤ k := by omega
  have happ : between text i (i + u.length) ++ between text (i + u.length) k = u ++ v :=
    (between_append (Nat.le_add_right i u.length) hle).trans h
  have hu : (between text i (i + u.length)).length = u.length := by
    rw [length_between (by omega)]
    omega
  obtain ⟨h₁, h₂⟩ := List.append_inj happ hu
  exact ⟨hle, h₁, h₂⟩

/-- The text between a place and the next is the character there. -/
theorem between_succ {text : Array Char} {i : Nat} {c : Char} (h : text[i]? = some c) :
  between text i (i + 1) = [c]
  := by
  have hd : (text.toList.drop i)[0]? = some c := by simpa using h
  simp only [between, Array.toList_extract, List.extract_eq_take_drop, Nat.add_sub_cancel_left]
  cases hl : text.toList.drop i with
  | nil => simp [hl] at hd
  | cons d ds => simpa [hl] using hd

/-- A character stands between two places if it stands at one of the places from the first
to just before the second. -/
theorem mem_between {text : Array Char} {i j : Nat} {c : Char} :
  c ∈ between text i j ↔ ∃ k, i ≤ k ∧ k < j ∧ text[k]? = some c
  := by
  simp only [between, Array.toList_extract, List.extract_eq_take_drop]
  rw [List.mem_iff_getElem?]
  constructor
  · rintro ⟨n, hn⟩
    rw [List.getElem?_take] at hn
    split at hn
    · use i + n
      rw [List.getElem?_drop] at hn
      exact ⟨by omega, by omega, by simpa using hn⟩
    · cases hn
  · rintro ⟨k, hik, hkj, hc⟩
    use k - i
    rw [List.getElem?_take, if_pos (by omega), List.getElem?_drop]
    simpa [Nat.add_sub_cancel' hik] using hc

namespace Pattern

/-! ### The language -/

/-- The texts that a pattern describes. -/
def language : Pattern → Language Char
  | empty => 1
  | one s => {w | ∃ c, w = [c] ∧ s.has c}
  | seq p q => p.language * q.language
  | either p q => p.language + q.language
  | many s _ => {w | ∀ c ∈ w, s.has c}
  | group _ p => p.language

theorem mem_language_empty {w : List Char} :
  w ∈ empty.language ↔ w = []
  := Language.mem_one w

theorem mem_language_one {s : CharSet} {w : List Char} :
  w ∈ (one s).language ↔ ∃ c, w = [c] ∧ s.has c
  := Iff.rfl

/-- The set of one character describes that character. -/
theorem mem_language_single {c : Char} {w : List Char} :
  w ∈ (one (.single c)).language ↔ w = [c]
  := by
  have hhas : ∀ d, (CharSet.single c).has d ↔ d = c := by
    intro d
    simp only [CharSet.single, CharSet.has, SetItem.has, List.any_cons, List.any_nil,
      Bool.or_false, Bool.bne_false, Bool.and_eq_true, decide_eq_true_eq]
    rw [← Char.toNat_inj]
    omega
  simp [mem_language_one, hhas]

theorem mem_language_seq {p q : Pattern} {w : List Char} :
  w ∈ (seq p q).language ↔ ∃ u ∈ p.language, ∃ v ∈ q.language, u ++ v = w
  := Language.mem_mul

theorem mem_language_either {p q : Pattern} {w : List Char} :
  w ∈ (either p q).language ↔ w ∈ p.language ∨ w ∈ q.language
  := Language.mem_add _ _ w

theorem mem_language_many {s : CharSet} {prefer : Preference} {w : List Char} :
  w ∈ (many s prefer).language ↔ ∀ c ∈ w, s.has c
  := Iff.rfl

/-- A sequence describes the text between two places if it can be divided at a place
between them. -/
theorem between_mem_language_seq {p q : Pattern} {text : Array Char} {i k : Nat}
    (hik : i ≤ k) (hk : k ≤ text.size) :
  between text i k ∈ (seq p q).language
    ↔ ∃ j, i ≤ j ∧ j ≤ k ∧ between text i j ∈ p.language ∧ between text j k ∈ q.language
  := by
  rw [mem_language_seq]
  constructor
  · rintro ⟨u, hu, v, hv, huv⟩
    obtain ⟨hle, h₁, h₂⟩ := between_eq_append hik hk huv.symm
    exact ⟨i + u.length, Nat.le_add_right _ _, hle, h₁.symm ▸ hu, h₂.symm ▸ hv⟩
  · rintro ⟨j, hij, hjk, hp, hq⟩
    exact ⟨_, hp, _, hq, between_append hij hjk⟩

/-! ### Live places -/

theorem mem_distinct {places : List Nat} {i : Nat} :
  i ∈ distinct places ↔ i ∈ places
  := by
  induction places with
  | nil => rfl
  | cons j places ih =>
    rw [distinct, List.foldr_cons, ← distinct]
    split
    · next h =>
      have hj : j ∈ distinct places := List.mem_of_head? h
      rw [List.mem_cons, ← ih]
      constructor
      · apply Or.inr
      · rintro (rfl | hi)
        · apply hj
        · apply hi
    · rw [List.mem_cons, List.mem_cons, ih]

/-- A run of characters of `s` between two places. -/
def IsRun (s : CharSet) (text : Array Char) (i j : Nat) : Prop :=
  i ≤ j ∧ ∀ k, i ≤ k → k < j → text[k]?.any s.has

theorem isRun_self (s : CharSet) (text : Array Char) (i : Nat) :
  IsRun s text i i
  := ⟨Nat.le_refl i, by omega⟩

/-- A run ending just after a character of `s` is a run up to that character. -/
theorem isRun_succ {s : CharSet} {text : Array Char} {i j : Nat} :
  IsRun s text i (j + 1) ↔ i = j + 1 ∨ text[j]?.any s.has ∧ IsRun s text i j
  := by
  constructor
  · rintro ⟨hij, h⟩
    rcases Nat.eq_or_lt_of_le hij with rfl | hlt
    · apply Or.inl rfl
    · right
      exact ⟨h j (by omega) (by omega), by omega, fun k hik hkj => h k hik (by omega)⟩
  · rintro (rfl | ⟨hj, hij, h⟩)
    · apply isRun_self
    · refine ⟨by omega, fun k hik hkj => ?_⟩
      rcases Nat.eq_or_lt_of_le (Nat.le_of_lt_succ hkj) with rfl | hlt
      · apply hj
      · apply h k hik hlt

/-- The text of a run consists of characters of the set. -/
theorem between_mem_language_many
    {s : CharSet} {prefer : Preference} {text : Array Char} {i j : Nat}
    (hij : i ≤ j) (hj : j ≤ text.size) :
  between text i j ∈ (many s prefer).language ↔ IsRun s text i j
  := by
  rw [mem_language_many, IsRun]
  constructor
  · intro h
    refine ⟨hij, fun k hik hkj => ?_⟩
    have hk : text[k]? = some text[k] := Array.getElem?_eq_getElem (by omega)
    rw [hk]
    apply h _ (mem_between.2 ⟨k, hik, hkj, hk⟩)
  · rintro ⟨-, h⟩ c hc
    obtain ⟨k, hik, hkj, hk⟩ := mem_between.1 hc
    simpa [hk] using h k hik hkj

/-- `liveRun` adds starts of runs that end at the place it begins with, and, unless it is
stopped earlier, all of them. -/
theorem mem_liveRun
    (s : CharSet) (text : Array Char) (stop : Option Nat) (i x : Nat) (found : List Nat) :
  (x ∈ liveRun s text stop i found → x ∈ found ∨ IsRun s text x i)
    ∧ (x ∈ found → x ∈ liveRun s text stop i found)
    ∧ (IsRun s text x i → x ∈ liveRun s text stop i found
        ∨ ∃ j, stop = some j ∧ IsRun s text x j)
  := by
  induction i generalizing found with
  | zero =>
    refine ⟨?_, ?_, ?_⟩
    · intro h
      rcases List.mem_cons.1 h with rfl | h
      · apply Or.inr (isRun_self s text 0)
      · apply Or.inl h
    · apply List.mem_cons_of_mem 0
    · rintro ⟨h, -⟩
      left
      rw [Nat.le_zero.1 h]
      apply List.mem_cons_self
  | succ i ih =>
    rw [isRun_succ, liveRun]
    split
    · next h =>
      obtain ⟨ih₁, ih₂, ih₃⟩ := ih ((i + 1) :: found)
      simp only [Bool.and_eq_true] at h
      refine ⟨?_, ?_, ?_⟩
      · intro hx
        rcases ih₁ hx with hx | hx
        · rcases List.mem_cons.1 hx with rfl | hx
          · apply Or.inr (Or.inl rfl)
          · apply Or.inl hx
        · apply Or.inr (Or.inr ⟨h.1, hx⟩)
      · intro hx
        apply ih₂ (List.mem_cons_of_mem _ hx)
      · rintro (rfl | ⟨-, hx⟩)
        · apply Or.inl (ih₂ List.mem_cons_self)
        · apply ih₃ hx
    · next h =>
      refine ⟨?_, List.mem_cons_of_mem _, ?_⟩
      · intro hx
        rcases List.mem_cons.1 hx with rfl | hx
        · apply Or.inr (Or.inl rfl)
        · apply Or.inl hx
      · rintro (rfl | ⟨hi, hx⟩)
        · apply Or.inl List.mem_cons_self
        · right
          simp only [hi, Bool.true_and, Bool.not_eq_true, bne_eq_false_iff_eq] at h
          exact ⟨i, h.symm, hx⟩

/-- `liveRuns` adds all starts of runs that end at one of its places. -/
theorem mem_liveRuns {s : CharSet} {text : Array Char} {x : Nat}
    {places found : List Nat} :
  x ∈ liveRuns s text places found ↔ x ∈ found ∨ ∃ j ∈ places, IsRun s text x j
  := by
  induction places generalizing found with
  | nil => simp [liveRuns]
  | cons i places ih =>
    obtain ⟨h₁, h₂, h₃⟩ := mem_liveRun s text places.head? i x found
    rw [liveRuns, ih]
    constructor
    · rintro (hx | ⟨j, hj, hx⟩)
      · rcases h₁ hx with hx | hx
        · apply Or.inl hx
        · apply Or.inr ⟨i, List.mem_cons_self, hx⟩
      · apply Or.inr ⟨j, List.mem_cons_of_mem i hj, hx⟩
    · rintro (hx | ⟨j, hj, hx⟩)
      · apply Or.inl (h₂ hx)
      · rcases List.mem_cons.1 hj with rfl | hj
        · rcases h₃ hx with hx | ⟨k, hk, hx⟩
          · apply Or.inl hx
          · apply Or.inr ⟨k, List.mem_of_head? hk, hx⟩
        · apply Or.inr ⟨j, hj, hx⟩

/-- A single character leads from one place to the next. -/
theorem eq_succ_of_between {text : Array Char} {i j : Nat} {c : Char} (hj : j ≤ text.size)
    (h : between text i j = [c]) :
  j = i + 1
  := by
  have hlen := length_between (i := i) hj
  rw [h, List.length_singleton] at hlen
  omega

/-- A place is live before a single character of a set if the character there is in the set
and the place after it is live. -/
theorem mem_live_one {s : CharSet} {text : Array Char} {after : List Nat} {i : Nat}
    (hafter : ∀ j ∈ after, j ≤ text.size) :
  i ∈ (one s).live text after ↔ ∃ j ∈ after, i ≤ j ∧ between text i j ∈ (one s).language
  := by
  simp only [live, List.mem_filterMap, mem_language_one]
  constructor
  · rintro ⟨j, hj, h⟩
    split at h
    · cases h
    · next k =>
      split at h
      · next hs =>
        cases h
        obtain ⟨c, hc, hs⟩ := (Option.any_eq_true _ _).1 hs
        exact ⟨i + 1, hj, Nat.le_succ i, c, between_succ hc, hs⟩
      · cases h
  · rintro ⟨j, hj, hij, c, hc, hs⟩
    obtain rfl := eq_succ_of_between (hafter j hj) hc
    obtain ⟨k, hik, hki, hk⟩ := mem_between.1 (hc ▸ List.mem_singleton_self c)
    obtain rfl : k = i := by omega
    exact ⟨k + 1, hj, by simp [hk, hs]⟩

/-- A place is live before a pattern if a text of the language of the pattern leads from
it to a place after the pattern. -/
theorem mem_live {p : Pattern} {text : Array Char} {after : List Nat} {i : Nat}
    (hafter : ∀ j ∈ after, j ≤ text.size) :
  i ∈ p.live text after ↔ ∃ j ∈ after, i ≤ j ∧ between text i j ∈ p.language
  := by
  induction p generalizing after i with
  | empty =>
    simp only [live, mem_language_empty]
    constructor
    · intro h
      exact ⟨i, h, Nat.le_refl i, between_self text i⟩
    · rintro ⟨j, hj, hij, h⟩
      have hlen := length_between (i := i) (hafter j hj)
      rw [h, List.length_nil] at hlen
      obtain rfl : i = j := by omega
      apply hj
  | one s => exact mem_live_one hafter
  | seq p q ihp ihq =>
    have hq : ∀ j ∈ q.live text after, j ≤ text.size := by
      intro j hj
      obtain ⟨k, hk, hjk, -⟩ := (ihq hafter).1 hj
      apply Nat.le_trans hjk (hafter k hk)
    simp only [live, ihp hq, ihq hafter]
    constructor
    · rintro ⟨j, ⟨k, hk, hjk, hv⟩, hij, hu⟩
      have hik := Nat.le_trans hij hjk
      exact ⟨k, hk, hik, (between_mem_language_seq hik (hafter k hk)).2 ⟨j, hij, hjk, hu, hv⟩⟩
    · rintro ⟨k, hk, hik, h⟩
      obtain ⟨j, hij, hjk, hu, hv⟩ := (between_mem_language_seq hik (hafter k hk)).1 h
      exact ⟨j, ⟨k, hk, hjk, hv⟩, hij, hu⟩
  | either p q ihp ihq =>
    simp only [live, mem_distinct, List.mem_merge, ihp hafter, ihq hafter, mem_language_either]
    grind
  | many s prefer =>
    simp only [live, mem_liveRuns, List.not_mem_nil, false_or, List.mem_reverse]
    apply exists_congr
    intro j
    constructor
    · rintro ⟨hj, h⟩
      exact ⟨hj, h.1, (between_mem_language_many h.1 (hafter j hj)).2 h⟩
    · rintro ⟨hj, hij, h⟩
      exact ⟨hj, (between_mem_language_many hij (hafter j hj)).1 h⟩
  | group g p ih => exact ih hafter

/-- The live places before a pattern are places of the line if those after it are. -/
theorem live_le_size {p : Pattern} {text : Array Char} {after : List Nat}
    (hafter : ∀ j ∈ after, j ≤ text.size) :
  ∀ i ∈ p.live text after, i ≤ text.size
  := by
  intro i hi
  obtain ⟨j, hj, hij, -⟩ := (mem_live hafter).1 hi
  apply Nat.le_trans hij (hafter j hj)

/-! ### The walk along a line -/

/-- The end of a run is reached by a run, and every longer one ends there too. -/
theorem isRun_runEnd (s : CharSet) (text : Array Char) (most i : Nat) :
  IsRun s text i (runEnd s text most i)
    ∧ ∀ j, j ≤ i + most → IsRun s text i j → j ≤ runEnd s text most i
  := by
  induction most generalizing i with
  | zero => exact ⟨isRun_self s text i, fun j hj _ => hj⟩
  | succ most ih =>
    rw [runEnd]
    split
    · next h =>
      obtain ⟨⟨hle, hrun⟩, hmax⟩ := ih (i + 1)
      refine ⟨⟨by omega, fun k hik hk => ?_⟩, fun j hj ⟨hij, hj'⟩ => ?_⟩
      · rcases Nat.eq_or_lt_of_le hik with rfl | hlt
        · apply h
        · apply hrun k hlt hk
      · rcases Nat.eq_or_lt_of_le hij with rfl | hlt
        · omega
        · apply hmax j (by omega) ⟨hlt, fun k hik hkj => hj' k (by omega) hkj⟩
    · next h =>
      refine ⟨isRun_self s text i, fun j _ ⟨hij, hj⟩ => ?_⟩
      by_contra hlt
      apply h (hj i (Nat.le_refl i) (by omega))

/-- A run is as long as a shorter end of it allows. -/
theorem IsRun.shorter {s : CharSet} {text : Array Char} {i j k : Nat}
    (h : IsRun s text i k) (hij : i ≤ j) (hjk : j ≤ k) :
  IsRun s text i j
  := ⟨hij, fun n hin hnj => h.2 n hin (by omega)⟩

/-- With the longest repetition preferred, a repetition stops at the last place to which a
run leads. -/
theorem follow_longest {s : CharSet} {text : Array Char} {after : List Nat} {i : Nat}
    (hafter : ∀ j ∈ after, j ≤ text.size) (hi : i ∈ (many s .longest).live text after) :
  ((many s .longest).follow text after i).stop ∈ after
    ∧ IsRun s text i ((many s .longest).follow text after i).stop
    ∧ ∀ j ∈ after, IsRun s text i j → j ≤ ((many s .longest).follow text after i).stop
  := by
  obtain ⟨j₀, hj₀, hij₀, hw⟩ := (mem_live hafter).1 hi
  have hrun₀ := (between_mem_language_many hij₀ (hafter j₀ hj₀)).1 hw
  obtain ⟨hend, hmax⟩ := isRun_runEnd s text (text.size - i) i
  have hreach : ∀ j ∈ after, IsRun s text i j →
      j ∈ after.filter fun j => i ≤ j && j ≤ runEnd s text (text.size - i) i := by
    intro j hj hrun
    have hsize := hafter j hj
    have := hmax j (by have := hrun.1; omega) hrun
    simpa [hj] using ⟨hrun.1, this⟩
  rw [follow]
  cases hm : (after.filter fun j => i ≤ j && j ≤ runEnd s text (text.size - i) i).max? with
  | none =>
    rw [List.max?_eq_none_iff] at hm
    simpa [hm] using hreach j₀ hj₀ hrun₀
  | some m =>
    obtain ⟨hmem, hle⟩ := List.max?_eq_some_iff.1 hm
    simp only [List.mem_filter, Bool.and_eq_true, decide_eq_true_eq] at hmem
    exact ⟨hmem.1, hend.shorter hmem.2.1 hmem.2.2, fun j hj hrun => hle j (hreach j hj hrun)⟩

/-- With the shortest repetition preferred, a repetition stops at the first place after
it. -/
theorem follow_shortest {s : CharSet} {text : Array Char} {after : List Nat} {i : Nat}
    (hafter : ∀ j ∈ after, j ≤ text.size) (hi : i ∈ (many s .shortest).live text after) :
  ((many s .shortest).follow text after i).stop ∈ after
    ∧ IsRun s text i ((many s .shortest).follow text after i).stop
    ∧ ∀ j ∈ after, i ≤ j → ((many s .shortest).follow text after i).stop ≤ j
  := by
  obtain ⟨j₀, hj₀, hij₀, hw⟩ := (mem_live hafter).1 hi
  have hrun₀ := (between_mem_language_many hij₀ (hafter j₀ hj₀)).1 hw
  have hreach : ∀ j ∈ after, i ≤ j → j ∈ after.filter (i ≤ ·) := by
    intro j hj hij
    simpa [hj] using hij
  rw [follow]
  cases hm : (after.filter (i ≤ ·)).min? with
  | none =>
    rw [List.min?_eq_none_iff] at hm
    simpa [hm] using hreach j₀ hj₀ hij₀
  | some m =>
    obtain ⟨hmem, hle⟩ := List.min?_eq_some_iff.1 hm
    simp only [List.mem_filter, decide_eq_true_eq] at hmem
    refine ⟨hmem.1, ?_, fun j hj hij => hle j (hreach j hj hij)⟩
    apply hrun₀.shorter hmem.2 (hle j₀ (hreach j₀ hj₀ hij₀))

/-- From a live place, the walk leads by a text of the language to a place after the
pattern. -/
theorem follow_spec {p : Pattern} {text : Array Char} {after : List Nat} {i : Nat}
    (hafter : ∀ j ∈ after, j ≤ text.size) (hi : i ∈ p.live text after) :
  (p.follow text after i).stop ∈ after ∧ i ≤ (p.follow text after i).stop
    ∧ between text i (p.follow text after i).stop ∈ p.language
  := by
  induction p generalizing after i with
  | empty => exact ⟨hi, Nat.le_refl i, between_self text i⟩
  | one s =>
    obtain ⟨j, hj, hij, hw⟩ := (mem_live hafter).1 hi
    obtain ⟨c, hc, hs⟩ := mem_language_one.1 hw
    obtain rfl := eq_succ_of_between (hafter j hj) hc
    exact ⟨hj, hij, hw⟩
  | seq p q ihp ihq =>
    have hq := live_le_size (p := q) hafter
    obtain ⟨hj, hij, hu⟩ := ihp hq hi
    obtain ⟨hk, hjk, hv⟩ := ihq hafter hj
    have hik := Nat.le_trans hij hjk
    exact ⟨hk, hik, (between_mem_language_seq hik (hafter _ hk)).2 ⟨_, hij, hjk, hu, hv⟩⟩
  | either p q ihp ihq =>
    rw [follow]
    split
    · next h =>
      obtain ⟨hj, hij, hw⟩ := ihp hafter (List.contains_iff_mem.1 h)
      exact ⟨hj, hij, mem_language_either.2 (Or.inl hw)⟩
    · next h =>
      have hq : i ∈ q.live text after := by
        rw [live, mem_distinct, List.mem_merge] at hi
        rcases hi with hi | hi
        · apply absurd (List.contains_iff_mem.2 hi) h
        · apply hi
      obtain ⟨hj, hij, hw⟩ := ihq hafter hq
      exact ⟨hj, hij, mem_language_either.2 (Or.inr hw)⟩
  | many s prefer =>
    cases prefer with
    | longest =>
      obtain ⟨hj, hrun, -⟩ := follow_longest hafter hi
      exact ⟨hj, hrun.1, (between_mem_language_many hrun.1 (hafter _ hj)).2 hrun⟩
    | shortest =>
      obtain ⟨hj, hrun, -⟩ := follow_shortest hafter hi
      exact ⟨hj, hrun.1, (between_mem_language_many hrun.1 (hafter _ hj)).2 hrun⟩
  | group g p ih => exact ih hafter hi

/-- Whether the pattern has no groups. -/
def groupless : Pattern → Bool
  | empty => true
  | one _ => true
  | seq p q => p.groupless && q.groupless
  | either p q => p.groupless && q.groupless
  | many _ _ => true
  | group _ _ => false

/-- A pattern without groups takes none. -/
theorem follow_groups_of_groupless {p : Pattern} (hp : p.groupless) (text : Array Char)
    (after : List Nat) (i : Nat) :
  (p.follow text after i).groups = []
  := by
  induction p generalizing after i with
  | empty => rfl
  | one s => rfl
  | seq p q ihp ihq =>
    simp only [groupless, Bool.and_eq_true] at hp
    simp [follow, ihp hp.1, ihq hp.2]
  | either p q ihp ihq =>
    simp only [groupless, Bool.and_eq_true] at hp
    rw [follow]
    split
    · apply ihp hp.1 after i
    · apply ihq hp.2 after i
  | many s prefer => cases prefer <;> rfl
  | group g p => cases hp

/-! ### Whole lines -/

/-- A text has captures exactly if it is in the language of the pattern. -/
theorem captures?_isSome_iff {p : Pattern} {cs : List Char} :
  (p.captures? cs).isSome ↔ cs ∈ p.language
  := by
  have hsize : ∀ j ∈ [cs.toArray.size], j ≤ cs.toArray.size := by simp
  have hwhole : between cs.toArray 0 cs.toArray.size = cs := by
    simp [between, List.extract_eq_take_drop]
  have hlive : 0 ∈ p.live cs.toArray [cs.toArray.size] ↔ cs ∈ p.language := by
    rw [mem_live hsize]
    simp only [List.mem_singleton, exists_eq_left, Nat.zero_le, true_and, hwhole]
  rw [captures?, ← hlive, ← List.contains_iff_mem]
  split <;> simp_all

end Pattern

/-- A line has captures exactly if it is in the language of the pattern. -/
theorem LinePattern.captures?_isSome_iff {l : LinePattern} {line : String} :
  (l.captures? line).isSome ↔ line.toList ∈ l.pattern.language
  := by
  rw [captures?, Option.isSome_map, Pattern.captures?_isSome_iff]

end LogFormat
