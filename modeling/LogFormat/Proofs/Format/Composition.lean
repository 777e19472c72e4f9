import LogFormat.Proofs.Directive.SubPatterns
import LogFormat.Proofs.Format.Splicing

/-!
# How a compiled format is composed

A compiled format is composed of its resolved segments: its fields are those of the
directives, its written pattern is that of the segments one after the other, and its
pattern for lines is the sequence of the literal characters and of one numbered group for
each field (`compile_eq_ok_iff`).  Nothing else can go wrong with segments that all have
been resolved.
-/

namespace LogFormat

open Pattern Pattern.Reading

/-- The field is what the table makes of the directive. -/
def Directive.Makes (reader : TimeReader) (d : Directive) (field : Field) : Prop :=
  ∃ e ∈ directiveTable, e.key = d.key ∧ e.field? reader d.parameter = .ok field

/-- The body of the group as which the sub-pattern of a field is read. -/
def Field.body (f : Field) : Pattern :=
  match LinePattern.read f.subPattern with
  | .ok ⟨.seq .empty (.group 1 body), _⟩ => body
  | _ => .empty

/-- If the sub-pattern is read as one group, the body is that of the group. -/
theorem Pattern.ReadsGroup.body_eq {f : Field} {body : Pattern} (h : ReadsGroup f.subPattern body) :
  f.body = body
  := by
  rw [Field.body, h.read]
  rfl

/-- The sub-pattern of a field that the table makes is read as one group. -/
theorem Directive.Makes.readsGroup {reader : TimeReader} {d : Directive} {field : Field}
    (h : d.Makes reader field) :
  ReadsGroup field.subPattern field.body
  := by
  obtain ⟨e, he, -, hfield⟩ := h
  obtain ⟨body, hbody⟩ := TableEntry.field?_readsGroup he hfield
  rw [hbody.body_eq]
  apply hbody

namespace TableEntry

/-- A line of the table is found by its key. -/
theorem ofKey?_eq_some {key : Char} {e : TableEntry} (h : ofKey? key = some e) :
  e ∈ directiveTable ∧ e.key = key
  := ⟨List.mem_of_find?_eq_some h, by simpa using List.find?_some h⟩

/-- A key that has no line is not in the table. -/
theorem ofKey?_eq_none {key : Char} :
  ofKey? key = none ↔ key ∉ directiveTable.map (·.key)
  := by
  simp [ofKey?]

end TableEntry

namespace Resolved

/-- The segment is literal text without a field, or a directive with the field that the
table makes of it. -/
def Sound (reader : TimeReader) (r : Resolved) : Prop :=
  match r.segment.directive, r.field with
  | none, none => True
  | some d, some field => d.Makes reader field
  | _, _ => False

/-- What is resolved keeps its segment and is sound. -/
theorem sound_of_ofSegment {reader : TimeReader} {s : Segment} {r : Resolved}
    (h : ofSegment reader s = .ok r) :
  r.segment = s ∧ r.Sound reader
  := by
  rw [ofSegment] at h
  split at h
  · next hs =>
    cases h
    simp [Sound, hs]
  · next d hs =>
    split at h
    · cases h
    · next entry hentry =>
      split at h
      · next field hfield =>
        cases h
        obtain ⟨hmem, hkey⟩ := TableEntry.ofKey?_eq_some hentry
        simp only [Sound, hs, true_and]
        exact ⟨entry, hmem, hkey, hfield⟩
      · cases h

/-- A sound field is what the table makes of a directive. -/
theorem Sound.makes {reader : TimeReader} {r : Resolved} (h : r.Sound reader)
    {field : Field} (hfield : r.field = some field) :
  ∃ d : Directive, d.Makes reader field
  := by
  rw [Sound, hfield] at h
  split at h
  · next heq => cases heq
  · next d _ _ heq =>
    cases heq
    exact ⟨d, h⟩
  · cases h

/-- The sub-pattern of a sound field is read as one group. -/
theorem Sound.readsGroup {reader : TimeReader} {r : Resolved} (h : r.Sound reader)
    {field : Field} (hfield : r.field = some field) :
  ReadsGroup field.subPattern field.body
  := by
  obtain ⟨d, hd⟩ := h.makes hfield
  apply hd.readsGroup

/-- The parts of the pattern for lines: the characters of the literal texts, and for each
field a group, numbered after the `g` groups before. -/
def parts : Nat → List Resolved → List Pattern
  | _, [] => []
  | g, r :: resolved =>
    match r.field with
    | none => (r.segment.text.map fun c => one (.single c)) ++ parts g resolved
    | some field => group (g + 1) field.body :: parts (g + 1) resolved

/-- The written patterns of sound segments are read as their parts. -/
theorem reads_written {reader : TimeReader} {resolved : List Resolved}
    (h : ∀ r ∈ resolved, r.Sound reader) :
  Reads (resolved.flatMap written) (fun g => parts g resolved)
    (resolved.filterMap (·.field)).length
  := by
  induction resolved with
  | nil => exact reads_nil
  | cons r resolved ih =>
    have ih := ih fun r hr => h r (List.mem_cons_of_mem _ hr)
    rw [List.flatMap_cons, List.filterMap_cons, written]
    cases hfield : r.field with
    | none =>
      have hread := (reads_quote r.segment.text).append ih
      simp only [parts, hfield]
      rw [Nat.zero_add] at hread
      apply hread
    | some field =>
      have hread := ((h r List.mem_cons_self).readsGroup hfield).2.append ih
      simp only [parts, hfield, List.length_cons]
      rw [Nat.add_comm 1] at hread
      apply hread

end Resolved

namespace Format

/-- The format with the given text and resolved segments. -/
def ofResolved (text : String) (resolved : List Resolved) : Format :=
  let fields := resolved.filterMap (·.field)
  ⟨text, fields, String.ofList (resolved.flatMap Resolved.written),
    ⟨sequence (Resolved.parts 0 resolved), fields.length⟩⟩

/-- The segments of a text, resolved with a way to read times. -/
structure Resolves (reader : TimeReader) (text : String) (resolved : List Resolved) :
    Prop where
  scan : Segment.scan text = .ok (resolved.map (·.segment))
  mapM : (resolved.map (·.segment)).mapM (Resolved.ofSegment reader) = .ok resolved

/-- Resolved segments are sound. -/
theorem Resolves.sound {reader : TimeReader} {text : String} {resolved : List Resolved}
    (h : Resolves reader text resolved) :
  ∀ r ∈ resolved, r.Sound reader
  := by
  intro r hr
  obtain ⟨n, hn, rfl⟩ := List.getElem_of_mem hr
  have hall := mapM_eq_ok.1 h.mapM
  apply (Resolved.sound_of_ofSegment (hall.get (by simpa using hn) hn)).2

/-- Segments that all can be resolved are resolved to themselves. -/
theorem resolves_of_mapM
    {reader : TimeReader} {text : String} {segments : List Segment} {resolved : List Resolved}
    (hscan : Segment.scan text = .ok segments)
    (hmap : segments.mapM (Resolved.ofSegment reader) = .ok resolved) :
  Resolves reader text resolved
  := by
  have hsegments : resolved.map (·.segment) = segments := by
    have hall := mapM_eq_ok.1 hmap
    clear hscan hmap
    induction hall with
    | nil => rfl
    | cons h _ ih => rw [List.map_cons, ih, (Resolved.sound_of_ofSegment h).1]
  exact ⟨hsegments ▸ hscan, hsegments ▸ hmap⟩

/-- A text whose segments are resolved is compiled to the format they make up. -/
theorem compile_of_resolves {reader : TimeReader} {text : String} {resolved : List Resolved}
    (h : Resolves reader text resolved) :
  compile reader text = .ok (ofResolved text resolved)
  := by
  have hwritten : spliceAll text.toList (resolved.filterMap (·.splice?))
      = resolved.flatMap Resolved.written :=
    Resolved.spliceAll_segments (Segment.scan_tiles h.scan)
  have hreads : Reads (String.ofList (resolved.flatMap Resolved.written)).toList
      (fun g => Resolved.parts g resolved) (resolved.filterMap (·.field)).length := by
    rw [String.toList_ofList]
    apply Resolved.reads_written h.sound
  rw [compile, h.scan]
  change ((resolved.map (·.segment)).mapM (Resolved.ofSegment reader) >>= _) = _
  rw [h.mapM]
  simp only [bind, Except.bind, hwritten, hreads.read, Except.mapError, if_pos]
  rfl

/-- Compiling gives a format exactly if all segments can be resolved, and then the one that
they make up. -/
theorem compile_eq_ok_iff {reader : TimeReader} {text : String} {f : Format} :
  compile reader text = .ok f
    ↔ ∃ resolved, Resolves reader text resolved ∧ f = ofResolved text resolved
  := by
  constructor
  · intro h
    obtain ⟨segments, hscan, h'⟩ := bind_eq_ok.1 h
    obtain ⟨resolved, hmap, -⟩ := bind_eq_ok.1 h'
    have hresolves := resolves_of_mapM (mapError_eq_ok.1 hscan) hmap
    rw [compile_of_resolves hresolves] at h
    cases h
    exact ⟨resolved, hresolves, rfl⟩
  · rintro ⟨resolved, h, rfl⟩
    apply compile_of_resolves h

end Format

end LogFormat
