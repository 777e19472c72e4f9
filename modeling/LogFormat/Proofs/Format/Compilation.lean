import LogFormat.Proofs.Format.Composition

/-!
# What compiling a format gives

Either the format is malformed, or the leftmost directive without a field is reported, or
there is a compiled format, whose fields and written pattern follow the segments from left
to right (`ofResolved_spec`).  A written pattern that cannot be read, or that has another
number of groups than there are fields, never comes up.
-/

namespace LogFormat

namespace Segment

/-- What is wrong with a directive that has no field: its key is not in the table, or it
is a time whose parameter is no layout. -/
def fault? (s : Segment) : Option FormatError :=
  s.directive.bind fun d =>
    if d.key ∉ directiveTable.map (·.key) then
      some (.unknownKey (String.ofList s.text) s.start)
    else if d.key = 't' then
      match Layout.ofParameter d.parameter with
      | .ok _ => none
      | .error fault => some (.invalidTimestampFormat (d.parameter.getD "") fault)
    else none

/-- The only faults of segments are unknown keys and parameters that are no layouts. -/
theorem eq_of_fault?_eq_some {s : Segment} {e : FormatError} (h : s.fault? = some e) :
  (∃ directive offset, e = .unknownKey directive offset)
    ∨ ∃ parameter fault, e = .invalidTimestampFormat parameter fault
  := by
  obtain ⟨d, -, h⟩ := Option.bind_eq_some_iff.1 h
  split at h
  · apply Or.inl ⟨_, _, (Option.some.inj h).symm⟩
  · split at h
    · split at h
      · cases h
      · apply Or.inr ⟨_, _, (Option.some.inj h).symm⟩
    · cases h

/-- The segments one after the other, with `f` applied to literal texts and the given
texts in the place of directives. -/
def weave (f : List Char → List Char) : List Segment → List (List Char) → List Char
  | [], _ => []
  | s :: segments, words =>
    match s.directive, words with
    | none, words => f s.text ++ weave f segments words
    | some _, word :: words => word ++ weave f segments words
    | some _, [] => weave f segments []

@[simp]
theorem weave_nil (f : List Char → List Char) (words : List (List Char)) :
  weave f [] words = []
  := by
  rw [weave]

theorem weave_literal (f : List Char → List Char) {s : Segment} (h : s.directive = none)
    (segments : List Segment) (words : List (List Char)) :
  weave f (s :: segments) words = f s.text ++ weave f segments words
  := by
  simp [weave, h]

theorem weave_directive (f : List Char → List Char) {s : Segment} {d : Directive}
    (h : s.directive = some d) (segments : List Segment) (word : List Char)
    (words : List (List Char)) :
  weave f (s :: segments) (word :: words) = word ++ weave f segments words
  := by
  simp [weave, h]

end Segment

/-- The times of the table are the directives with the key `t`. -/
theorem TableEntry.maker_eq_timestamp_iff {e : TableEntry} (he : e ∈ directiveTable) :
  e.maker = .timestamp ↔ e.key = 't'
  := by
  have hall : ∀ e ∈ directiveTable, e.maker = .timestamp ↔ e.key = 't' := by decide
  apply hall e he

/-- A line of the table makes a field unless it is that of the times and the parameter is
no layout. -/
theorem TableEntry.field?_cases {e : TableEntry} (he : e ∈ directiveTable)
    (reader : TimeReader) (parameter : Option String) :
  (∃ field, e.field? reader parameter = .ok field
      ∧ (e.key = 't' → ∃ layout, Layout.ofParameter parameter = .ok layout))
    ∨ ∃ fault, e.field? reader parameter = .error fault ∧ e.key = 't'
        ∧ Layout.ofParameter parameter = .error fault
  := by
  have htime := maker_eq_timestamp_iff he
  rw [field?]
  split
  · next hmaker =>
    rw [hmaker] at htime
    apply Or.inl ⟨_, rfl, fun hkey => by cases htime.2 hkey⟩
  · next hmaker =>
    rw [hmaker] at htime
    apply Or.inl ⟨_, rfl, fun hkey => by cases htime.2 hkey⟩
  · next hmaker =>
    cases hlayout : Layout.ofParameter parameter with
    | ok layout => exact Or.inl ⟨_, rfl, fun _ => ⟨layout, rfl⟩⟩
    | error fault => exact Or.inr ⟨fault, rfl, htime.1 hmaker, rfl⟩

namespace Resolved

/-- A segment with a fault is not resolved, and the fault is the reason. -/
theorem ofSegment_of_fault {reader : TimeReader} {s : Segment} {e : FormatError}
    (h : s.fault? = some e) :
  ofSegment reader s = .error e
  := by
  obtain ⟨d, hd, h⟩ := Option.bind_eq_some_iff.1 h
  simp only [ofSegment, hd]
  split at h
  · next hkey =>
    rw [TableEntry.ofKey?_eq_none.2 hkey]
    cases h
    rfl
  · next hkey =>
    split at h
    · next ht =>
      cases hentry : TableEntry.ofKey? d.key with
      | none => exact absurd (TableEntry.ofKey?_eq_none.1 hentry) hkey
      | some entry =>
        obtain ⟨hmem, hentry⟩ := TableEntry.ofKey?_eq_some hentry
        rcases TableEntry.field?_cases hmem reader d.parameter with
          ⟨field, -, hlayout⟩ | ⟨fault, hfield, -, hlayout⟩
        · obtain ⟨layout, hlayout⟩ := hlayout (hentry.trans ht)
          rw [hlayout] at h
          cases h
        · rw [hlayout] at h
          cases h
          simp only [hfield]
    · cases h

/-- A segment without a fault is resolved. -/
theorem ofSegment_of_fault?_eq_none {s : Segment} (reader : TimeReader) (h : s.fault? = none) :
  ∃ r, ofSegment reader s = .ok r
  := by
  rw [ofSegment]
  split
  · exact ⟨_, rfl⟩
  · next d hd =>
    rw [Segment.fault?, hd, Option.bind_some] at h
    split at h
    · cases h
    · next hkey =>
      split
      · next hentry => exact absurd (TableEntry.ofKey?_eq_none.1 hentry) hkey
      · next entry hentry =>
        obtain ⟨hmem, hentry⟩ := TableEntry.ofKey?_eq_some hentry
        rcases TableEntry.field?_cases hmem reader d.parameter with
          ⟨field, hfield, -⟩ | ⟨fault, -, ht, hlayout⟩
        · rw [hfield]
          exact ⟨_, rfl⟩
        · rw [if_pos (hentry ▸ ht), hlayout] at h
          cases h

/-- The fields of sound segments are what the table makes of their directives. -/
theorem forall₂_makes {reader : TimeReader} {resolved : List Resolved}
    (h : ∀ r ∈ resolved, r.Sound reader) :
  List.Forall₂ (Directive.Makes reader) ((resolved.map (·.segment)).filterMap (·.directive))
    (resolved.filterMap (·.field))
  := by
  induction resolved with
  | nil => exact .nil
  | cons r resolved ih =>
    have ih := ih fun r hr => h r (List.mem_cons_of_mem _ hr)
    have hr := h r List.mem_cons_self
    rw [Sound] at hr
    split at hr
    · next hd hf => simpa [List.filterMap_cons, hd, hf] using ih
    · next d field hd hf => simpa [List.filterMap_cons, hd, hf] using ⟨hr, by simpa using ih⟩
    · cases hr

/-- The written patterns of sound segments are the sub-patterns woven into the quoted
literal texts. -/
theorem flatMap_written {reader : TimeReader} {resolved : List Resolved}
    (h : ∀ r ∈ resolved, r.Sound reader) :
  resolved.flatMap written
    = Segment.weave quote (resolved.map (·.segment))
        ((resolved.filterMap (·.field)).map (·.subPattern.toList))
  := by
  induction resolved with
  | nil => rfl
  | cons r resolved ih =>
    have ih := ih fun r hr => h r (List.mem_cons_of_mem _ hr)
    have hr := h r List.mem_cons_self
    rw [Sound] at hr
    split at hr
    · next hd hf => simp [Segment.weave_literal quote hd, written, hf, ih]
    · next d field hd hf => simp [Segment.weave_directive quote hd, written, hf, ih]
    · cases hr

end Resolved

namespace Format

/-- A malformed directive gives the error, whatever stands before it. -/
theorem compile_of_scan_error (reader : TimeReader) {text : String} {offset : Nat}
    (hscan : Segment.scan text = .error offset) :
  compile reader text = .error (.malformedDirective offset)
  := by
  rw [compile, hscan]
  rfl

/-- The leftmost segment with a fault gives the error. -/
theorem compile_of_findSome? (reader : TimeReader) {text : String} {segments : List Segment}
    {e : FormatError} (hscan : Segment.scan text = .ok segments)
    (hfault : segments.findSome? Segment.fault? = some e) :
  compile reader text = .error e
  := by
  obtain ⟨before, s, after, rfl, hs, hbefore⟩ := List.findSome?_eq_some_iff.1 hfault
  rw [compile, hscan]
  change ((before ++ s :: after).mapM (Resolved.ofSegment reader) >>= _) = _
  rw [mapM_eq_error _ (Resolved.ofSegment_of_fault hs)]
  · rfl
  · exact fun b hb => Resolved.ofSegment_of_fault?_eq_none reader (hbefore b hb)

/-- Segments without faults can all be resolved. -/
theorem exists_resolves (reader : TimeReader) {text : String} {segments : List Segment}
    (hscan : Segment.scan text = .ok segments)
    (hfault : segments.findSome? Segment.fault? = none) :
  ∃ resolved, resolved.map (·.segment) = segments ∧ Resolves reader text resolved
  := by
  have hall : ∀ s ∈ segments, ∃ r, Resolved.ofSegment reader s = .ok r := fun s hs =>
    Resolved.ofSegment_of_fault?_eq_none reader (List.findSome?_eq_none_iff.1 hfault s hs)
  have hmap : ∃ resolved, List.Forall₂ (fun s r => Resolved.ofSegment reader s = .ok r)
      segments resolved := by
    clear hscan hfault
    induction segments with
    | nil => exact ⟨[], .nil⟩
    | cons s segments ih =>
      obtain ⟨r, hr⟩ := hall s List.mem_cons_self
      obtain ⟨resolved, hresolved⟩ := ih fun s hs => hall s (List.mem_cons_of_mem _ hs)
      exact ⟨r :: resolved, .cons hr hresolved⟩
  obtain ⟨resolved, hresolved⟩ := hmap
  have hresolves := resolves_of_mapM hscan (mapM_eq_ok.2 hresolved)
  have hsegments := hresolves.scan
  rw [hscan] at hsegments
  exact ⟨resolved, (Except.ok.inj hsegments).symm, hresolves⟩

/-- The parts of a format made of resolved segments follow its segments. -/
theorem ofResolved_spec {reader : TimeReader} {text : String} {resolved : List Resolved}
    (h : Resolves reader text resolved) :
  List.Forall₂ (Directive.Makes reader)
      ((resolved.map (·.segment)).filterMap (·.directive)) (ofResolved text resolved).fields
    ∧ (ofResolved text resolved).written.toList
        = Segment.weave quote (resolved.map (·.segment))
            ((ofResolved text resolved).fields.map (·.subPattern.toList))
    ∧ LinePattern.read (ofResolved text resolved).written = .ok (ofResolved text resolved).line
  := by
  have hwritten : (ofResolved text resolved).written.toList
      = resolved.flatMap Resolved.written := String.toList_ofList
  refine ⟨Resolved.forall₂_makes h.sound, ?_, ?_⟩
  · rw [hwritten]
    apply Resolved.flatMap_written h.sound
  · have hreads := Resolved.reads_written h.sound
    rw [← hwritten] at hreads
    apply hreads.read

/-- Compiling fails with the position of a malformed directive, if there is one; else with
the mistake of the leftmost directive that has no field; else it gives a format with one
field for each directive, from left to right, whose written pattern is that of the fields
with the quoted literal texts between them, and is read as a pattern with one group for
each field. -/
theorem compile_outcome (reader : TimeReader) (text : String) :
  (match Segment.scan text with
    | .error offset => compile reader text = .error (.malformedDirective offset)
    | .ok segments =>
      Segment.Tiles 0 segments text.toList
        ∧ match segments.findSome? Segment.fault? with
          | some e => compile reader text = .error e
          | none =>
            ∃ f, compile reader text = .ok f ∧ f.text = text
              ∧ List.Forall₂ (Directive.Makes reader) (segments.filterMap (·.directive)) f.fields
              ∧ f.written.toList
                  = Segment.weave quote segments (f.fields.map (·.subPattern.toList))
              ∧ LinePattern.read f.written = .ok f.line
              ∧ f.line.groups = f.fields.length)
    ∧ (∀ groups fields, compile reader text ≠ .error (.groupCountMismatch groups fields))
    ∧ ∀ e, compile reader text ≠ .error (.invalidPattern e)
  := by
  cases hscan : Segment.scan text with
  | error offset =>
    have herror := compile_of_scan_error reader hscan
    rw [herror]
    exact ⟨rfl, by simp, by simp⟩
  | ok segments =>
    cases hfault : segments.findSome? Segment.fault? with
    | some e =>
      have herror := compile_of_findSome? reader hscan hfault
      obtain ⟨s, -, hs⟩ := List.exists_of_findSome?_eq_some hfault
      rw [herror]
      refine ⟨⟨Segment.scan_tiles hscan, by simp [hfault]⟩, ?_, ?_⟩
      · intro groups fields h
        cases h
        rcases Segment.eq_of_fault?_eq_some hs with ⟨_, _, h⟩ | ⟨_, _, h⟩ <;> cases h
      · intro error h
        cases h
        rcases Segment.eq_of_fault?_eq_some hs with ⟨_, _, h⟩ | ⟨_, _, h⟩ <;> cases h
    | none =>
      obtain ⟨resolved, rfl, hresolves⟩ := exists_resolves reader hscan hfault
      obtain ⟨hmakes, hwritten, hread⟩ := ofResolved_spec hresolves
      rw [compile_of_resolves hresolves]
      refine ⟨⟨Segment.scan_tiles hscan, ?_⟩, by simp, by simp⟩
      simp only [hfault]
      exact ⟨_, rfl, rfl, hmakes, hwritten, hread, rfl⟩

end Format

end LogFormat
