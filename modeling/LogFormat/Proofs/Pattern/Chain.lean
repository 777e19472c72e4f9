import LogFormat.Proofs.Pattern.Language
import LogFormat.Proofs.Pattern.Reading

/-!
# Chains of patterns

A sequence associates to the left, as it is read.  Its texts and the walk along a line do
not depend on how it associates (`follow_sequence`), and so arguments about sequences go
part by part along the chain of the parts, which associates to the right.  At the end of
the line, a chain is matched from a place if its first part leads to a place from which the
rest is matched (`mem_live_end`).
-/

namespace LogFormat

/-- The number of characters that is preferred, or an equal one. -/
def Preference.Favours : Preference → Nat → Nat → Prop
  | longest, m, n => n ≤ m
  | shortest, m, n => m ≤ n

namespace Pattern

/-- Some parts one after the other, the first of them outermost. -/
def chain (parts : List Pattern) : Pattern :=
  parts.foldr seq empty

/-! ### Sequences and chains -/

theorem language_foldl_seq (p : Pattern) (parts : List Pattern) :
  (parts.foldl seq p).language = (seq p (chain parts)).language
  := by
  induction parts generalizing p with
  | nil => exact (mul_one p.language).symm
  | cons q parts ih =>
    rw [List.foldl_cons, ih]
    apply mul_assoc p.language q.language (chain parts).language

/-- A sequence and its chain describe the same texts. -/
theorem language_sequence (parts : List Pattern) :
  (sequence parts).language = (chain parts).language
  := by
  rw [sequence, language_foldl_seq]
  apply one_mul (chain parts).language

/-- A sequence of one part describes what the part describes. -/
theorem language_sequence_singleton (p : Pattern) :
  (sequence [p]).language = p.language
  := by
  rw [language_sequence]
  apply mul_one p.language

/-- Alone, the written pattern of a group matches the texts of its body. -/
theorem ReadsGroup.matches_iff {written : String} {body : Pattern} (h : ReadsGroup written body)
    (word : List Char) :
  (∃ l, LinePattern.read written = .ok l ∧ (l.captures? (String.ofList word)).isSome)
    ↔ word ∈ body.language
  := by
  have hlanguage : (sequence [group 1 body]).language = body.language :=
    language_sequence_singleton _
  constructor
  · rintro ⟨l, hread, hsome⟩
    rw [h.read] at hread
    cases hread
    rw [LinePattern.captures?_isSome_iff, String.toList_ofList, hlanguage] at hsome
    apply hsome
  · intro hword
    refine ⟨_, h.read, ?_⟩
    rw [LinePattern.captures?_isSome_iff, String.toList_ofList, hlanguage]
    apply hword

/-- A chain of parts describes the texts of its first parts with those of the others after them. -/
theorem language_chain_append (parts others : List Pattern) :
  (chain (parts ++ others)).language = (chain parts).language * (chain others).language
  := by
  induction parts with
  | nil => exact (one_mul _).symm
  | cons p parts ih =>
    change p.language * (chain (parts ++ others)).language
      = p.language * (chain parts).language * (chain others).language
    rw [ih, mul_assoc]

/-- The empty text is the one of no parts. -/
theorem nil_mem_chain :
  [] ∈ (chain []).language
  := mem_language_empty.2 rfl

/-- A text of the first part and one of the others after it make a text of the chain. -/
theorem append_mem_chain {p : Pattern} {parts : List Pattern} {u v : List Char}
    (hu : u ∈ p.language) (hv : v ∈ (chain parts).language) :
  u ++ v ∈ (chain (p :: parts)).language
  := mem_language_seq.2 ⟨u, hu, v, hv, rfl⟩

theorem live_foldl_seq (p : Pattern) (parts : List Pattern) :
  (parts.foldl seq p).live = (seq p (chain parts)).live
  := by
  induction parts generalizing p with
  | nil => rfl
  | cons q parts ih =>
    rw [List.foldl_cons, ih]
    rfl

/-- The walk through three patterns does not depend on how they associate. -/
theorem follow_seq_assoc (p q r : Pattern) (text : Array Char) (after : List Nat) (i : Nat) :
  (seq (seq p q) r).follow text after i = (seq p (seq q r)).follow text after i
  := by
  simp only [follow, live, List.append_assoc]

theorem follow_foldl_seq
    (p : Pattern) (parts : List Pattern) (text : Array Char) (after : List Nat) (i : Nat) :
  (parts.foldl seq p).follow text after i = (seq p (chain parts)).follow text after i
  := by
  induction parts generalizing p with
  | nil => simp [chain, follow, live]
  | cons q parts ih =>
    rw [List.foldl_cons, ih, follow_seq_assoc]
    rfl

/-- A line is walked along a sequence as along its chain. -/
theorem follow_sequence
    (parts : List Pattern) (text : Array Char) (after : List Nat) (i : Nat) :
  (sequence parts).follow text after i = (chain parts).follow text after i
  := by
  rw [sequence, follow_foldl_seq]
  simp [follow]

theorem live_sequence (parts : List Pattern) :
  (sequence parts).live = (chain parts).live
  := live_foldl_seq empty parts

/-! ### Up to the end of the line -/

/-- The text from a place to the end of the line. -/
def rest (text : Array Char) (i : Nat) : List Char :=
  between text i text.size

/-- A pattern matches the rest of the line from the places that are live before the end. -/
theorem mem_live_end {p : Pattern} {text : Array Char} {i : Nat} :
  i ∈ p.live text [text.size] ↔ i ≤ text.size ∧ rest text i ∈ p.language
  := by
  rw [mem_live (by simp)]
  simp [rest]

/-- Dividing the rest of the line is choosing a place in it. -/
theorem rest_eq_append {text : Array Char} {i : Nat} {u v : List Char} (hi : i ≤ text.size)
    (h : rest text i = u ++ v) :
  i + u.length ≤ text.size ∧ between text i (i + u.length) = u
    ∧ rest text (i + u.length) = v
  := between_eq_append hi (Nat.le_refl _) h

/-- From a place to a later one, and on to the end of the line. -/
theorem between_append_rest {text : Array Char} {i j : Nat} (hij : i ≤ j)
    (hj : j ≤ text.size) :
  between text i j ++ rest text j = rest text i
  := between_append hij hj

/-- A pattern prefers its longest or its shortest texts: from wherever a place after it can
be reached, the walk goes to the last or to the first of those that can be reached. -/
def Prefers (p : Pattern) (prefer : Preference) : Prop :=
  ∀ ⦃text : Array Char⦄ ⦃after : List Nat⦄ ⦃i j : Nat⦄, (∀ k ∈ after, k ≤ text.size) →
    j ∈ after → i ≤ j → between text i j ∈ p.language →
    prefer.Favours (p.follow text after i).stop j

/-- A repetition prefers what it says. -/
theorem prefers_many (s : CharSet) (prefer : Preference) :
  (many s prefer).Prefers prefer
  := by
  intro text after i j hafter hj hij hw
  have hlive : i ∈ (many s prefer).live text after := (mem_live hafter).2 ⟨j, hj, hij, hw⟩
  cases prefer with
  | longest =>
    obtain ⟨-, -, hmax⟩ := follow_longest hafter hlive
    apply hmax j hj ((between_mem_language_many hij (hafter j hj)).1 hw)
  | shortest =>
    obtain ⟨-, -, hmin⟩ := follow_shortest hafter hlive
    apply hmin j hj hij

/-- A sequence of a single part prefers what the part prefers. -/
theorem Prefers.sequence {p : Pattern} {prefer : Preference} (h : p.Prefers prefer) :
  (sequence [p]).Prefers prefer
  := by
  intro text after i j hafter hj hij hw
  rw [language_sequence_singleton] at hw
  rw [follow_sequence]
  apply h hafter hj hij hw

end Pattern

/-! ### Numbered groups -/

/-- If the groups of a match are numbered from 1 on, each of them takes part once, and the
groups in the order of their numbers are those of the match. -/
theorem map_find?_range {α : Type} {found : List (Nat × α)} {n : Nat}
    (h : found.map (·.1) = List.range' 1 n) :
  ((List.range n).map fun i => (found.reverse.find? (·.1 == i + 1)).map (·.2))
    = (found.map (·.2)).map some
  := by
  have hlen : found.length = n := by
    rw [← List.length_map, h, List.length_range']
  have hnodup : (found.map (·.1)).Nodup := h ▸ List.nodup_range'
  rw [List.map_map]
  apply List.ext_getElem (by simp [hlen])
  intro i hi _
  rw [List.length_map, List.length_range] at hi
  have hi' : i < found.length := hlen ▸ hi
  have hkey : found[i].1 = i + 1 := by
    have hget : (found.map (·.1))[i]? = some (1 + 1 * i) := by
      rw [h, List.getElem?_range' hi]
    rw [List.getElem?_map, List.getElem?_eq_getElem hi'] at hget
    have hget : found[i].1 = 1 + 1 * i := Option.some.inj hget
    omega
  have hmem : found[i] ∈ found := List.getElem_mem hi'
  rw [List.getElem_map, List.getElem_range, List.getElem_map]
  cases hfind : found.reverse.find? (·.1 == i + 1) with
  | none => simpa [hkey] using List.find?_eq_none.1 hfind _ (List.mem_reverse.2 hmem)
  | some g =>
    have hg : g.1 = i + 1 := by simpa using List.find?_some hfind
    have hgmem := List.mem_reverse.1 (List.mem_of_find?_eq_some hfind)
    rw [List.inj_on_of_nodup_map hnodup hgmem hmem (hg.trans hkey.symm)]
    rfl

end LogFormat
