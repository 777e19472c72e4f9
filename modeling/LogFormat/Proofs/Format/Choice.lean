import LogFormat.Proofs.Directive.Preferences
import LogFormat.Proofs.Format.Division

/-!
# Which of several divisions of a line is chosen

A line can often be divided between the fields of a format in several ways.  The captures
are chosen from left to right: once the fields before it have their words, a field takes the
shortest or the longest of the words that leave a rest which can still be divided between
the fields after it (`captures?_preferred`).
-/

namespace LogFormat

namespace Resolved

/-- Of two divisions of a text that have the same words for the fields before some field, the
chosen one has a word there that the field prefers to that of the other. -/
theorem Chosen.favours_after {reader : TimeReader} {resolved : List Resolved}
    (h : ∀ r ∈ resolved, r.Sound reader) {earlier later later' : List (List Char)}
    {word word' text : List Char} (hchosen : Chosen resolved (earlier ++ word :: later))
    (hdivide : Divide resolved (earlier ++ word :: later) text)
    (hdivide' : Divide resolved (earlier ++ word' :: later') text)
    {field : Field} (hfield : (fields resolved)[earlier.length]? = some field)
    {prefer : Preference} (hprefers : field.body.Prefers prefer) :
  prefer.Favours word.length word'.length
  := by
  induction resolved generalizing earlier text with
  | nil => cases hfield
  | cons r resolved ih =>
    have hr := h r List.mem_cons_self
    have hothers := fun r hr => h r (List.mem_cons_of_mem _ hr)
    cases hmade : r.field with
    | none =>
      obtain ⟨rest, hrest, rfl⟩ := (divide_literal hr hmade).1 hdivide
      obtain ⟨rest', hrest', heq⟩ := (divide_literal hr hmade).1 hdivide'
      obtain rfl := List.append_cancel_left heq
      rw [fields_cons_of_none hmade] at hfield
      simp only [Chosen, hmade] at hchosen
      apply ih hothers hchosen hrest hrest' hfield
    | some first =>
      rw [fields_cons_of_some hmade] at hfield
      cases earlier with
      | nil =>
        cases hfield
        apply hchosen.favours hr hmade hprefers hdivide hdivide'
      | cons u earlier =>
        obtain ⟨_, rest, _, ⟨⟩, -, hrest, rfl⟩ := (divide_field hr hmade).1 hdivide
        obtain ⟨_, rest', _, ⟨⟩, -, hrest', heq⟩ := (divide_field hr hmade).1 hdivide'
        obtain rfl := List.append_cancel_left heq
        simp only [List.cons_append, Chosen, hmade] at hchosen
        apply ih hothers hchosen.2 hrest hrest' hfield

end Resolved

namespace Format

/-- The captures of a line are chosen from left to right.  They divide the line and, with the
captures of the fields before it held fixed, the capture of a directive is the shortest word
for the directives whose texts are anything without a double quote, and the longest word for
all others, of the words that its sub-pattern matches alone and after which the rest of the
line can still be divided.  This is so for formats without times whose layout is given by
items. -/
theorem captures?_preferred
    {reader : TimeReader} {text : String} {f : Format} (h : compile reader text = .ok f)
    {segments : List Segment} (hscan : Segment.scan text = .ok segments)
    (hplain : ∀ d ∈ segments.filterMap (·.directive), d.Plain)
    {line : String} {captures : List (Option Capture)}
    (hline : f.line.captures? line = some captures) :
  ∃ found : List Capture, captures = found.map some
    ∧ Divides segments f.fields (found.map (·.text)) line.toList
    ∧ ∀ earlier c later, found = earlier ++ c :: later →
        ∃ d, (segments.filterMap (·.directive))[earlier.length]? = some d
          ∧ ∀ word words,
              Divides segments f.fields (earlier.map (·.text) ++ word :: words) line.toList →
              d.preference.Favours c.text.length word.length
  := by
  obtain ⟨resolved, hresolves, rfl⟩ := compile_eq_ok_iff.1 h
  obtain rfl : resolved.map (·.segment) = segments :=
    Except.ok.inj (hresolves.scan.symm.trans hscan)
  obtain ⟨-, hcaptures⟩ := captures?_of_resolves hresolves line
  obtain ⟨found, hfound, hdivide, hchosen⟩ := hcaptures captures hline
  refine ⟨found, hfound, hdivide, ?_⟩
  rintro earlier c later rfl
  have hmakes := Resolved.forall₂_makes hresolves.sound
  have hlt : earlier.length < (Resolved.fields resolved).length := by
    rw [hdivide.accepts.length_eq, List.length_map, List.length_append, List.length_cons]
    omega
  have hlt' : earlier.length
      < ((resolved.map (·.segment)).filterMap (·.directive)).length := by
    rw [hmakes.length_eq]
    apply hlt
  refine ⟨_, List.getElem?_eq_getElem hlt', fun word words hdivide' => ?_⟩
  have hprefers := (hmakes.get hlt' hlt).prefers (hplain _ (List.getElem_mem hlt'))
  rw [List.map_append, List.map_cons] at hdivide hchosen
  apply hchosen.favours_after hresolves.sound hdivide hdivide' _ hprefers
  rw [List.length_map]
  apply List.getElem?_eq_getElem hlt

/-- With a hyphen between a host and a log name, the line `a-b-c` can be divided at either
hyphen: the host takes as little as it can, and the name as much as it can. -/
theorem captures?_preferred_host_name :
  ∃ f segments, compile (fun _ _ => .error "") "%h-%l" = .ok f
    ∧ Segment.scan "%h-%l" = .ok segments
    ∧ (∀ d ∈ segments.filterMap (·.directive), d.Plain)
    ∧ f.line.captures? "a-b-c" = some [some ⟨0, ['a']⟩, some ⟨2, ['b', '-', 'c']⟩]
    ∧ (∀ word words, Divides segments f.fields (word :: words) "a-b-c".toList →
        1 ≤ word.length)
    ∧ ∀ word words, Divides segments f.fields (['a'] :: word :: words) "a-b-c".toList →
        word.length ≤ 3
  := by
  let resolved : List Resolved :=
    [⟨⟨0, ['%', 'h'], some ⟨'h', none, false, [], none⟩⟩,
        some ⟨"remote-host", SubPattern.any, .string⟩⟩,
      ⟨⟨2, ['-'], none⟩, none⟩,
      ⟨⟨3, ['%', 'l'], some ⟨'l', none, false, [], none⟩⟩,
        some ⟨"remote-log-name", SubPattern.nonSpace, .string⟩⟩]
  have hscan : Segment.scan "%h-%l" = .ok (resolved.map (·.segment)) := by cbv
  have hcompile : compile (fun _ _ => .error "") "%h-%l" = .ok (ofResolved "%h-%l" resolved) :=
    compile_of_resolves (resolves_of_mapM hscan rfl)
  have hplain : ∀ d ∈ (resolved.map (·.segment)).filterMap (·.directive), d.Plain := by
    intro d hd ht
    have hkeys : ∀ d ∈ (resolved.map (·.segment)).filterMap (·.directive), d.key ≠ 't' := by
      decide
    apply absurd ht (hkeys d hd)
  have hline : (ofResolved "%h-%l" resolved).line.captures? "a-b-c"
      = some [some ⟨0, ['a']⟩, some ⟨2, ['b', '-', 'c']⟩] := by cbv
  obtain ⟨found, hfound, -, hpreferred⟩ := captures?_preferred hcompile hscan hplain hline
  obtain rfl : found = [⟨0, ['a']⟩, ⟨2, ['b', '-', 'c']⟩] :=
    List.map_injective_iff.2 (Option.some_injective _) hfound.symm
  refine ⟨_, _, hcompile, hscan, hplain, hline, fun word words h => ?_, fun word words h => ?_⟩
  · obtain ⟨d, hd, hfavours⟩ := hpreferred [] _ _ rfl
    cases hd
    apply hfavours word words h
  · obtain ⟨d, hd, hfavours⟩ := hpreferred [⟨0, ['a']⟩] _ _ rfl
    cases hd
    apply hfavours word words h

end Format

end LogFormat
