import LogFormat.Proofs.Format.Compilation
import LogFormat.Proofs.Pattern.Chain
import Mathlib

/-!
# How a line is divided between the fields of a format

A line matches a compiled format if it can be divided into the literal texts of the format
and, in the place of each directive, a word that the sub-pattern of its field matches
alone.  The captures of a line that matches are such words, one for each field in order, and
each of them is, of the words its field might have taken there, the one that the sub-pattern
prefers (`captures?_of_resolves`).
-/

namespace LogFormat

open Pattern Pattern.Reading

namespace Field

/-- Alone, the sub-pattern of the field matches the whole of the word. -/
def Accepts (f : Field) (word : List Char) : Prop :=
  ∃ l, LinePattern.read f.subPattern = .ok l ∧ (l.captures? (String.ofList word)).isSome

/-- The sub-pattern of a field that is read as one group matches the texts of its body. -/
theorem accepts_iff {f : Field} (h : ReadsGroup f.subPattern f.body) (word : List Char) :
  f.Accepts word ↔ word ∈ f.body.language
  := h.matches_iff word

/-- A field with a sub-pattern of the table accepts the texts that it describes. -/
theorem accepts_iff_of_mem_bodies {f : Field} {body : Pattern}
    (h : (f.subPattern, body) ∈ SubPattern.bodies) (word : List Char) :
  f.Accepts word ↔ word ∈ body.language
  := by
  have hread := SubPattern.readsGroup_of_mem_bodies h
  have hbody := hread.body_eq
  rw [accepts_iff (hbody.symm ▸ hread), hbody]

end Field

/-- Words divide a text between fields if every field accepts its word and the words, woven
into the literal texts of the segments, make up the text. -/
structure Divides (segments : List Segment) (fields : List Field) (words : List (List Char))
    (text : List Char) : Prop where
  accepts : List.Forall₂ Field.Accepts fields words
  weave_eq : Segment.weave id segments words = text

namespace Resolved

/-- The fields of resolved segments. -/
def fields (resolved : List Resolved) : List Field :=
  resolved.filterMap (·.field)

theorem fields_cons_of_none {r : Resolved} (h : r.field = none) (resolved : List Resolved) :
  fields (r :: resolved) = fields resolved
  := by
  simp [fields, h]

theorem fields_cons_of_some {r : Resolved} {field : Field} (h : r.field = some field)
    (resolved : List Resolved) :
  fields (r :: resolved) = field :: fields resolved
  := by
  simp [fields, h]

/-- The words divide a text between the fields of resolved segments. -/
def Divide (resolved : List Resolved) (words : List (List Char)) (text : List Char) : Prop :=
  Divides (resolved.map (·.segment)) (fields resolved) words text

/-- Literal text before segments stands before the text that is divided between them. -/
theorem divide_literal {reader : TimeReader} {r : Resolved} {resolved : List Resolved}
    (hr : r.Sound reader) (hfield : r.field = none) {words : List (List Char)}
    {text : List Char} :
  Divide (r :: resolved) words text
    ↔ ∃ rest, Divide resolved words rest ∧ r.segment.text ++ rest = text
  := by
  have hnone : r.segment.directive = none := by
    rw [Sound, hfield] at hr
    split at hr <;> simp_all
  constructor
  · rintro ⟨haccepts, hweave⟩
    rw [fields_cons_of_none hfield] at haccepts
    rw [List.map_cons, Segment.weave_literal id hnone] at hweave
    exact ⟨_, ⟨haccepts, rfl⟩, hweave⟩
  · rintro ⟨rest, ⟨haccepts, hweave⟩, rfl⟩
    constructor
    · rw [fields_cons_of_none hfield]
      apply haccepts
    · rw [List.map_cons, Segment.weave_literal id hnone, hweave]
      rfl

/-- A directive before segments stands for a word that its field accepts. -/
theorem divide_field {reader : TimeReader} {r : Resolved} {resolved : List Resolved}
    (hr : r.Sound reader) {field : Field} (hfield : r.field = some field)
    {words : List (List Char)} {text : List Char} :
  Divide (r :: resolved) words text
    ↔ ∃ word rest others, words = word :: others ∧ field.Accepts word
        ∧ Divide resolved others rest ∧ word ++ rest = text
  := by
  obtain ⟨d, hsome⟩ : ∃ d, r.segment.directive = some d := by
    rw [Sound, hfield] at hr
    split at hr <;> simp_all
  constructor
  · rintro ⟨haccepts, hweave⟩
    rw [fields_cons_of_some hfield] at haccepts
    obtain ⟨word, others, hword, hothers, rfl⟩ := List.forall₂_cons_left_iff.1 haccepts
    rw [List.map_cons, Segment.weave_directive id hsome] at hweave
    exact ⟨word, _, others, rfl, hword, ⟨hothers, rfl⟩, hweave⟩
  · rintro ⟨word, rest, others, rfl, hword, ⟨hothers, hweave⟩, rfl⟩
    constructor
    · rw [fields_cons_of_some hfield]
      exact .cons hword hothers
    · rw [List.map_cons, Segment.weave_directive id hsome, hweave]

/-- The texts of a chain of single characters and more are those characters and then a text
of what follows. -/
theorem mem_language_chain_literal {cs : List Char} {parts : List Pattern}
    {text : List Char} :
  text ∈ (chain ((cs.map fun c => one (.single c)) ++ parts)).language
    ↔ ∃ rest ∈ (chain parts).language, cs ++ rest = text
  := by
  induction cs generalizing text with
  | nil => simp
  | cons c cs ih =>
    rw [List.map_cons, List.cons_append, chain, List.foldr_cons, ← chain, mem_language_seq]
    simp only [mem_language_single, ih, exists_eq_left]
    constructor
    · rintro ⟨_, ⟨rest, hrest, rfl⟩, rfl⟩
      exact ⟨rest, hrest, rfl⟩
    · rintro ⟨rest, hrest, rfl⟩
      exact ⟨_, ⟨rest, hrest, rfl⟩, rfl⟩

/-- The chain of the parts of resolved segments describes the texts that can be divided
between their fields. -/
theorem mem_language_chain {reader : TimeReader} {resolved : List Resolved}
    (h : ∀ r ∈ resolved, r.Sound reader) (g : Nat) (text : List Char) :
  text ∈ (chain (parts g resolved)).language ↔ ∃ words, Divide resolved words text
  := by
  induction resolved generalizing g text with
  | nil =>
    rw [parts, chain, List.foldr_nil, mem_language_empty]
    constructor
    · rintro rfl
      exact ⟨[], .nil, rfl⟩
    · rintro ⟨words, -, rfl⟩
      rfl
  | cons r resolved ih =>
    have hr := h r List.mem_cons_self
    have ih := ih fun r hr => h r (List.mem_cons_of_mem _ hr)
    cases hfield : r.field with
    | none =>
      simp only [parts, hfield, mem_language_chain_literal, ih, divide_literal hr hfield]
      grind
    | some field =>
      have haccepts := Field.accepts_iff (hr.readsGroup hfield)
      simp only [parts, hfield, divide_field hr hfield, haccepts]
      rw [chain, List.foldr_cons, ← chain, mem_language_seq]
      simp only [ih, language]
      grind

/-- Every word of a division is, of all words that its field accepts and that leave a text
that can still be divided between the other fields, the one that the pattern of the field
prefers. -/
def Chosen : List Resolved → List (List Char) → Prop
  | [], _ => True
  | r :: resolved, words =>
    match r.field, words with
    | none, words => Chosen resolved words
    | some field, word :: words =>
      (∀ prefer, field.body.Prefers prefer → ∀ u v us, field.Accepts u → Divide resolved us v →
          u ++ v = word ++ Segment.weave id (resolved.map (·.segment)) words →
          prefer.Favours word.length u.length)
        ∧ Chosen resolved words
    | some _, [] => False

/-- A field takes a word that it prefers to that of any division of the same text. -/
theorem Chosen.favours {reader : TimeReader} {r : Resolved} {resolved : List Resolved}
    {field : Field} {prefer : Preference} {word word' : List Char}
    {words words' : List (List Char)} {text : List Char} (hr : r.Sound reader)
    (hfield : r.field = some field) (hprefers : field.body.Prefers prefer)
    (hchosen : Chosen (r :: resolved) (word :: words))
    (hdivide : Divide (r :: resolved) (word :: words) text)
    (hdivide' : Divide (r :: resolved) (word' :: words') text) :
  prefer.Favours word.length word'.length
  := by
  obtain ⟨_, rest, _, ⟨⟩, -, hrest, rfl⟩ := (divide_field hr hfield).1 hdivide
  obtain ⟨_, rest', _, ⟨⟩, hword', hrest', heq⟩ := (divide_field hr hfield).1 hdivide'
  simp only [Chosen, hfield] at hchosen
  rw [← hrest.weave_eq] at heq
  apply hchosen.1 prefer hprefers word' rest' words' hword' hrest' heq

/-- The texts of the groups that a walk has taken. -/
def takenWords (text : Array Char) (taken : Taken) : List (List Char) :=
  taken.groups.map fun (_, first, last) => between text first last

/-- A walk along single characters comes to the place after them. -/
theorem follow_chain_literal
    (cs : List Char) (parts : List Pattern) (text : Array Char) (after : List Nat) (i : Nat) :
  (chain ((cs.map fun c => one (.single c)) ++ parts)).follow text after i
    = (chain parts).follow text after (i + cs.length)
  := by
  induction cs generalizing i with
  | nil => rfl
  | cons c cs ih =>
    have hsucc : i + (c :: cs).length = i + 1 + cs.length := by
      rw [List.length_cons]
      omega
    rw [hsucc, ← ih]
    rfl

/-- The first field takes the word that its pattern prefers and leaves the rest to the other
fields. -/
theorem follow_chain_field
    {reader : TimeReader} {resolved : List Resolved} (h : ∀ r ∈ resolved, r.Sound reader)
    {field : Field} (hread : ReadsGroup field.subPattern field.body)
    {g : Nat} {text : Array Char} {i : Nat}
    (hi : i ∈ (chain (group (g + 1) field.body :: parts (g + 1) resolved)).live text
      [text.size]) :
  ∃ stop, i ≤ stop ∧ stop ∈ (chain (parts (g + 1) resolved)).live text [text.size]
    ∧ field.Accepts (between text i stop)
    ∧ ((chain (group (g + 1) field.body :: parts (g + 1) resolved)).follow text
        [text.size] i).groups
      = (g + 1, i, stop)
        :: ((chain (parts (g + 1) resolved)).follow text [text.size] stop).groups
    ∧ ∀ prefer, field.body.Prefers prefer → ∀ u v us, field.Accepts u → Divide resolved us v →
        u ++ v = rest text i → prefer.Favours (between text i stop).length u.length
  := by
  have hafter : ∀ j ∈ (chain (parts (g + 1) resolved)).live text [text.size],
      j ≤ text.size := live_le_size (by simp)
  obtain ⟨hstop, hle, hword⟩ := follow_spec (p := field.body) hafter hi
  refine ⟨_, hle, hstop, (Field.accepts_iff hread _).2 hword, ?_, ?_⟩
  · have hgroups := follow_groups_of_groupless hread.1 text
      ((chain (parts (g + 1) resolved)).live text [text.size]) i
    rw [chain, List.foldr_cons, ← chain, follow, follow, hgroups]
    rfl
  · intro prefer hprefer u v us hu hv huv
    have hsize := (mem_live_end.1 hi).1
    obtain ⟨hlen, hbetween, rfl⟩ := rest_eq_append hsize huv.symm
    have hlive : i + u.length ∈ (chain (parts (g + 1) resolved)).live text [text.size] :=
      mem_live_end.2 ⟨hlen, (mem_language_chain h _ _).2 ⟨us, hv⟩⟩
    have hu' : between text i (i + u.length) ∈ field.body.language := by
      rw [hbetween]
      apply (Field.accepts_iff hread u).1 hu
    have hfavours := hprefer hafter hlive (Nat.le_add_right _ _) hu'
    rw [length_between (hafter _ hstop)]
    cases prefer <;> simp only [Preference.Favours] at hfavours ⊢ <;> omega

/-- A walk along the parts of resolved segments to the end of the line takes the groups of
their fields in order, and their texts are chosen to divide the rest of the line. -/
theorem follow_chain {reader : TimeReader} {resolved : List Resolved}
    (h : ∀ r ∈ resolved, r.Sound reader) {g : Nat} {text : Array Char} {i : Nat}
    (hi : i ∈ (chain (parts g resolved)).live text [text.size]) :
  let taken := (chain (parts g resolved)).follow text [text.size] i
  taken.groups.map (·.1) = List.range' (g + 1) (fields resolved).length
    ∧ Divide resolved (takenWords text taken) (rest text i)
    ∧ Chosen resolved (takenWords text taken)
  := by
  induction resolved generalizing g i with
  | nil =>
    obtain ⟨hsize, hrest⟩ := mem_live_end.1 hi
    exact ⟨rfl, ⟨.nil, (mem_language_empty.1 hrest).symm⟩, trivial⟩
  | cons r resolved ih =>
    have hr := h r List.mem_cons_self
    have hothers := fun r hr => h r (List.mem_cons_of_mem _ hr)
    cases hfield : r.field with
    | none =>
      simp only [parts, hfield] at hi ⊢
      obtain ⟨hsize, hrest⟩ := mem_live_end.1 hi
      obtain ⟨v, hv, hrest⟩ := mem_language_chain_literal.1 hrest
      obtain ⟨hlen, -, rfl⟩ := rest_eq_append hsize hrest.symm
      obtain ⟨hnumbers, hdivide, hchosen⟩ := ih hothers (mem_live_end.2 ⟨hlen, hv⟩)
      rw [follow_chain_literal]
      refine ⟨?_, (divide_literal hr hfield).2 ⟨_, hdivide, hrest⟩, ?_⟩
      · rw [fields_cons_of_none hfield]
        apply hnumbers
      · simp only [Chosen, hfield]
        apply hchosen
    | some field =>
      simp only [parts, hfield] at hi ⊢
      obtain ⟨stop, hle, hstop, hword, hgroups, hprefers⟩ :=
        follow_chain_field hothers (hr.readsGroup hfield) hi
      obtain ⟨hnumbers, hdivide, hchosen⟩ := ih hothers hstop
      have hrest := between_append_rest hle (mem_live_end.1 hstop).1
      rw [takenWords, hgroups, List.map_cons, List.map_cons, ← takenWords]
      refine ⟨?_, (divide_field hr hfield).2 ⟨_, _, _, rfl, hword, hdivide, hrest⟩, ?_⟩
      · rw [hnumbers, fields_cons_of_some hfield]
        rfl
      · simp only [Chosen, hfield]
        refine ⟨fun prefer hprefer u v us hu hv huv => ?_, hchosen⟩
        rw [hdivide.weave_eq, hrest] at huv
        apply hprefers prefer hprefer u v us hu hv huv

end Resolved

namespace Format

/-- The line matches if it can be divided between the fields, and then the captures are
chosen to divide it. -/
theorem captures?_of_resolves {reader : TimeReader} {text : String} {resolved : List Resolved}
    (h : Resolves reader text resolved) (line : String) :
  (((ofResolved text resolved).line.captures? line).isSome
      ↔ ∃ words, Resolved.Divide resolved words line.toList)
    ∧ ∀ captures, (ofResolved text resolved).line.captures? line = some captures →
        ∃ found : List Capture, captures = found.map some
          ∧ Resolved.Divide resolved (found.map (·.text)) line.toList
          ∧ Resolved.Chosen resolved (found.map (·.text))
  := by
  constructor
  · rw [LinePattern.captures?_isSome_iff, ofResolved, language_sequence,
      Resolved.mem_language_chain h.sound]
  · intro captures hcaptures
    obtain ⟨found, hfound, rfl⟩ := Option.map_eq_some_iff.1 hcaptures
    rw [Pattern.captures?] at hfound
    split at hfound
    · next hlive =>
      rw [List.contains_iff_mem] at hlive
      simp only [ofResolved, follow_sequence, live_sequence] at hlive hfound
      obtain ⟨hnumbers, hdivide, hchosen⟩ := Resolved.follow_chain h.sound hlive
      have hwhole : rest line.toList.toArray 0 = line.toList := by
        simp [rest, between, List.extract_eq_take_drop]
      rw [hwhole] at hdivide
      cases hfound
      have hwords : ∀ taken : Taken,
          ((taken.groups.map fun (g, first, last) =>
            (g, captured line.toList.toArray first last)).map (·.2)).map (·.text)
          = Resolved.takenWords line.toList.toArray taken := by
        intro taken
        rw [List.map_map, List.map_map]
        rfl
      refine ⟨_, map_find?_range ?_, ?_, ?_⟩
      · rw [List.map_map]
        apply hnumbers
      · rw [hwords]
        apply hdivide
      · rw [hwords]
        apply hchosen
    · cases hfound

/-- A line matches a compiled format exactly if it can be divided into the literal texts of
the format and a word for each directive that its sub-pattern matches alone.  If it
matches, every group takes part, and the captures are such words, each at the place of its
directive. -/
theorem captures?_divides {reader : TimeReader} {text : String} {f : Format}
    (h : compile reader text = .ok f) (line : String) :
  ∃ segments, Segment.scan text = .ok segments ∧ Segment.Tiles 0 segments text.toList
    ∧ List.Forall₂ (Directive.Makes reader) (segments.filterMap (·.directive)) f.fields
    ∧ ((f.line.captures? line).isSome ↔ ∃ words, Divides segments f.fields words line.toList)
    ∧ ∀ captures, f.line.captures? line = some captures →
        ∃ found : List Capture, captures = found.map some
          ∧ Divides segments f.fields (found.map (·.text)) line.toList
  := by
  obtain ⟨resolved, hresolves, rfl⟩ := compile_eq_ok_iff.1 h
  obtain ⟨hsome, hcaptures⟩ := captures?_of_resolves hresolves line
  refine ⟨_, hresolves.scan, Segment.scan_tiles hresolves.scan,
    Resolved.forall₂_makes hresolves.sound, hsome, ?_⟩
  intro captures hfound
  obtain ⟨found, hfound, hdivide, -⟩ := hcaptures captures hfound
  exact ⟨found, hfound, hdivide⟩

/-- A line of a host and a user, with a colon between them. -/
theorem captures?_divides_host_user :
  ∃ f segments, compile (fun _ _ => .error "") "%h:%u" = .ok f
    ∧ Segment.scan "%h:%u" = .ok segments ∧ Segment.Tiles 0 segments "%h:%u".toList
    ∧ List.Forall₂ (Directive.Makes fun _ _ => .error "") (segments.filterMap (·.directive))
        f.fields
    ∧ ((f.line.captures? "a:b").isSome ↔ ∃ words, Divides segments f.fields words "a:b".toList)
    ∧ ∀ captures, f.line.captures? "a:b" = some captures →
        ∃ found : List Capture, captures = found.map some
          ∧ Divides segments f.fields (found.map (·.text)) "a:b".toList
  := by
  have hscan : Segment.scan "%h:%u" = .ok
      [⟨0, ['%', 'h'], some ⟨'h', none, false, [], none⟩⟩, ⟨2, [':'], none⟩,
        ⟨3, ['%', 'u'], some ⟨'u', none, false, [], none⟩⟩] := by cbv
  obtain ⟨resolved, -, hresolves⟩ :=
    exists_resolves (fun _ _ => .error "") hscan (by decide)
  have hcompile := compile_of_resolves hresolves
  obtain ⟨segments, hspec⟩ := captures?_divides hcompile "a:b"
  exact ⟨_, segments, hcompile, hspec⟩

end Format

end LogFormat
