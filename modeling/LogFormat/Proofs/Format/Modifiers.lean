import LogFormat.Proofs.Directive.Scanning
import LogFormat.Proofs.Format.Compilation
import LogFormat.Record.Extractor

/-!
# Modifiers of directives

A directive word can have a status filter, a position sign and a parameter, but only the
parameter of a time matters.  A format from which the modifiers that do not matter are taken away
has the same directives and the same literal texts between them (`scanFrom_flatMap_text`), and so
it is compiled to the same fields and the same pattern (`compile_bareText`).
-/

namespace LogFormat

/-! ### Bare directives -/

namespace Directive

/-- The directive without the modifiers that do not matter: only a time keeps its parameter. -/
def bare (d : Directive) : Directive :=
  ⟨d.key, if d.key = 't' then d.parameter else none, false, [], none⟩

/-- The word of the directive without the modifiers that do not matter: `%` and the key, and
between them the parameter of a time. -/
def bareText (d : Directive) : List Char :=
  if d.key = 't' then '%' :: (parameterText d.parameter ++ ['t']) else ['%', d.key]

theorem text_bare (d : Directive) :
  d.bare.text = d.bareText
  := by
  by_cases ht : d.key = 't'
  · simp [text, body, bare, bareText, ht, filterText, positionText]
  · simp [text, body, bare, bareText, ht, filterText, positionText, parameterText]

/-- A directive that can be written can be written without its modifiers. -/
theorem Valid.bare {d : Directive} (h : d.Valid) :
  d.bare.Valid
  := by
  constructor
  · simp [Directive.bare]
  · simp [Directive.bare]
  · intro p hp
    apply h.parameter_ne
    by_cases ht : d.key = 't'
    · simpa [Directive.bare, ht] using hp
    · simp [Directive.bare, ht] at hp
  · exact h.isKey_key

end Directive

/-- The table makes of a directive what it makes of it without its modifiers. -/
theorem TableEntry.field?_bare {e : TableEntry} (he : e ∈ directiveTable) {d : Directive}
    (hkey : e.key = d.key) (reader : TimeReader) :
  e.field? reader d.bare.parameter = e.field? reader d.parameter
  := by
  by_cases ht : d.key = 't'
  · rw [Directive.bare, if_pos ht]
  · have hmaker : e.maker ≠ .timestamp := by
      rw [ne_eq, maker_eq_timestamp_iff he, hkey]
      exact ht
    rw [field?, field?]
    split
    · rfl
    · rfl
    · next h => exact absurd h hmaker

namespace Segment

/-! ### Scanning what has been scanned -/

/-- A segment that is a directive word begins with `%`. -/
theorem WellFormed.exists_text {s : Segment} (h : s.WellFormed) (hsome : s.directive.isSome) :
  ∃ d : Directive, s.directive = some d ∧ d.Valid ∧ s.text = '%' :: d.body
  := by
  obtain ⟨d, hd⟩ := Option.isSome_iff_exists.1 hsome
  rw [WellFormed, hd] at h
  exact ⟨d, hd, h.1, h.2⟩

/-- After a literal text, the texts of segments begin with the `%` of a directive word. -/
theorem Alternating.head?_text {s : Segment} {segments : List Segment}
    (h : Alternating (s :: segments)) (hnone : s.directive = none)
    (hwellFormed : ∀ s ∈ segments, s.WellFormed) :
  ∀ c ∈ (segments.flatMap (·.text)).head?, ¬isLiteral c
  := by
  cases segments with
  | nil => simp
  | cons t segments =>
    obtain hs | ht := (List.isChain_cons_cons.1 h).1
    · rw [hnone] at hs
      cases hs
    · obtain ⟨d, -, -, htext⟩ := (hwellFormed t List.mem_cons_self).exists_text ht
      rintro c hc
      rw [List.flatMap_cons, htext] at hc
      cases hc
      decide

/-- Well-formed segments that follow one another, and of which no two literal texts are next to
each other, are found in their texts. -/
theorem scanFrom_flatMap_text {start : Nat} {segments : List Segment}
    (hconsecutive : Consecutive start segments) (hwellFormed : ∀ s ∈ segments, s.WellFormed)
    (halternating : Alternating segments) :
  scanFrom start (segments.flatMap (·.text)) = .ok segments
  := by
  induction segments generalizing start with
  | nil => rw [List.flatMap_nil, scanFrom]
  | cons s segments ih =>
    obtain ⟨hstart, hrun⟩ := hconsecutive
    obtain ⟨hs, hothers⟩ := List.forall_mem_cons.1 hwellFormed
    have ih := ih hrun hothers (List.IsChain.tail halternating)
    obtain ⟨start, text, directive⟩ := s
    obtain rfl : start = _ := hstart
    cases directive with
    | some d =>
      obtain ⟨hd, rfl⟩ := hs
      have hread := Directive.read?_body hd (segments.flatMap (·.text))
      rw [List.flatMap_cons, Directive.text, List.cons_append, scanFrom_directive hread]
      rw [Directive.text] at ih
      rw [ih]
      rfl
    | none =>
      obtain ⟨hne, hpercent⟩ := hs
      obtain ⟨c, cs, rfl⟩ := List.exists_cons_of_ne_nil hne
      have hliteral : ∀ d ∈ c :: cs, isLiteral d := by
        intro d hd
        rw [isLiteral, bne_iff_ne]
        rintro rfl
        apply hpercent hd
      obtain ⟨hc, hcs⟩ := List.forall_mem_cons.1 hliteral
      obtain ⟨htake, hdrop⟩ := span_append_ending hcs (halternating.head?_text rfl hothers)
      rw [List.flatMap_cons, List.cons_append, scanFrom_literal (by simpa [isLiteral] using hc),
        htake, hdrop, ih]
      rfl

/-! ### Bare segments -/

/-- The text of a segment without the modifiers that do not matter. -/
def bareText (s : Segment) : List Char :=
  match s.directive with
  | some d => d.bareText
  | none => s.text

/-- The segment without the modifiers that do not matter, at another position. -/
def bareAt (start : Nat) (s : Segment) : Segment :=
  ⟨start, s.bareText, s.directive.map Directive.bare⟩

/-- What is taken away from a segment leaves it well-formed. -/
theorem WellFormed.bareAt {s : Segment} (h : s.WellFormed) (start : Nat) :
  (s.bareAt start).WellFormed
  := by
  cases hd : s.directive with
  | some d =>
    rw [WellFormed, hd] at h
    simp only [WellFormed, Segment.bareAt, hd, Option.map_some, bareText]
    exact ⟨h.1.bare, d.text_bare.symm⟩
  | none =>
    rw [WellFormed, hd] at h
    simp only [WellFormed, Segment.bareAt, hd, Option.map_none, bareText]
    exact h

end Segment

namespace Resolved

/-- Resolved segments without the modifiers that do not matter, one after the other from a
position on. -/
def bareFrom : Nat → List Resolved → List Resolved
  | _, [] => []
  | start, r :: resolved =>
    ⟨r.segment.bareAt start, r.field⟩
      :: bareFrom (start + utf8Length r.segment.bareText) resolved

theorem consecutive_bareFrom (start : Nat) (resolved : List Resolved) :
  Segment.Consecutive start ((bareFrom start resolved).map (·.segment))
  := by
  induction resolved generalizing start with
  | nil => exact trivial
  | cons r resolved ih => exact ⟨rfl, ih _⟩

theorem wellFormed_bareFrom {resolved : List Resolved}
    (h : ∀ s ∈ resolved.map (·.segment), s.WellFormed) (start : Nat) :
  ∀ s ∈ (bareFrom start resolved).map (·.segment), s.WellFormed
  := by
  induction resolved generalizing start with
  | nil => simp [bareFrom]
  | cons r resolved ih =>
    rw [List.map_cons] at h
    obtain ⟨hr, hothers⟩ := List.forall_mem_cons.1 h
    exact List.forall_mem_cons.2 ⟨hr.bareAt start, ih hothers _⟩

/-- Directives stay where they are between literal texts. -/
theorem isSome_directive_bareFrom (start : Nat) (resolved : List Resolved) :
  ((bareFrom start resolved).map (·.segment)).map (·.directive.isSome)
    = (resolved.map (·.segment)).map (·.directive.isSome)
  := by
  induction resolved generalizing start with
  | nil => rfl
  | cons r resolved ih =>
    rw [bareFrom, List.map_cons, List.map_cons, List.map_cons, List.map_cons, ih]
    simp [Segment.bareAt]

theorem alternating_bareFrom {resolved : List Resolved}
    (h : Segment.Alternating (resolved.map (·.segment))) (start : Nat) :
  Segment.Alternating ((bareFrom start resolved).map (·.segment))
  := by
  have hmap : ∀ segments : List Segment, Segment.Alternating segments
      ↔ (segments.map (·.directive.isSome)).IsChain (fun a b : Bool => a ∨ b) := fun segments =>
    (List.isChain_map (R := fun a b : Bool => a ∨ b) _).symm
  rw [hmap, isSome_directive_bareFrom, ← hmap]
  apply h

theorem flatMap_text_bareFrom (start : Nat) (resolved : List Resolved) :
  ((bareFrom start resolved).map (·.segment)).flatMap (·.text)
    = (resolved.map (·.segment)).flatMap Segment.bareText
  := by
  induction resolved generalizing start with
  | nil => rfl
  | cons r resolved ih =>
    rw [bareFrom, List.map_cons, List.map_cons, List.flatMap_cons, List.flatMap_cons, ih]
    rfl

theorem filterMap_field_bareFrom (start : Nat) (resolved : List Resolved) :
  (bareFrom start resolved).filterMap (·.field) = resolved.filterMap (·.field)
  := by
  induction resolved generalizing start with
  | nil => rfl
  | cons r resolved ih => simp only [bareFrom, List.filterMap_cons, ih]

/-- The written pattern does not change. -/
theorem flatMap_written_bareFrom {reader : TimeReader} {resolved : List Resolved}
    (h : ∀ r ∈ resolved, r.Sound reader) (start : Nat) :
  (bareFrom start resolved).flatMap written = resolved.flatMap written
  := by
  induction resolved generalizing start with
  | nil => rfl
  | cons r resolved ih =>
    obtain ⟨hr, hothers⟩ := List.forall_mem_cons.1 h
    rw [bareFrom, List.flatMap_cons, List.flatMap_cons, ih hothers]
    congr 1
    cases hfield : r.field with
    | some field => simp only [written, hfield]
    | none =>
      rw [Sound, hfield] at hr
      cases hd : r.segment.directive with
      | some d => simp [hd] at hr
      | none => simp only [written, hfield, Segment.bareAt, Segment.bareText, hd]

/-- The segments are resolved to the same fields. -/
theorem ofSegment_bareAt {reader : TimeReader} {s : Segment} {r : Resolved}
    (h : ofSegment reader s = .ok r) (start : Nat) :
  ofSegment reader (s.bareAt start) = .ok ⟨s.bareAt start, r.field⟩
  := by
  rw [ofSegment] at h ⊢
  cases hd : s.directive with
  | none =>
    rw [hd] at h
    cases h
    simp only [Segment.bareAt, hd, Option.map_none]
  | some d =>
    simp only [hd] at h
    have hbare : (s.bareAt start).directive = some d.bare := by
      rw [Segment.bareAt, hd, Option.map_some]
    simp only [hbare]
    split at h
    · cases h
    · next e he =>
      obtain ⟨hmem, hkey⟩ := TableEntry.ofKey?_eq_some he
      split at h
      · next field hfield =>
        cases h
        have hkey' : TableEntry.ofKey? d.bare.key = some e := he
        simp only [hkey', TableEntry.field?_bare hmem hkey, hfield]
      · cases h

end Resolved

namespace Format

/-- The format with the given segments without the modifiers that do not matter. -/
def bareText (segments : List Segment) : String :=
  String.ofList (segments.flatMap Segment.bareText)

/-- The text without modifiers is resolved to the same fields. -/
theorem Resolves.bareFrom {reader : TimeReader} {text : String} {resolved : List Resolved}
    (h : Resolves reader text resolved) :
  Resolves reader (bareText (resolved.map (·.segment))) (Resolved.bareFrom 0 resolved)
  := by
  obtain ⟨hwellFormed, halternating⟩ := Segment.wellFormed_of_scanFrom h.scan
  constructor
  · rw [Segment.scan, bareText, String.toList_ofList, ← Resolved.flatMap_text_bareFrom 0]
    apply Segment.scanFrom_flatMap_text
    · apply Resolved.consecutive_bareFrom
    · apply Resolved.wellFormed_bareFrom hwellFormed
    · apply Resolved.alternating_bareFrom halternating
  · have hall := mapM_eq_ok.1 h.mapM
    rw [mapM_eq_ok]
    clear h hwellFormed halternating
    generalize 0 = start
    induction resolved generalizing start with
    | nil => exact .nil
    | cons r resolved ih =>
      rw [List.map_cons] at hall
      obtain ⟨hr, hothers⟩ := List.forall₂_cons.1 hall
      exact .cons (Resolved.ofSegment_bareAt hr start) (ih hothers _)

/-- Without modifiers the format differs in its text only. -/
theorem ofResolved_bareFrom {reader : TimeReader} {text : String} {resolved : List Resolved}
    (h : Resolves reader text resolved) (text' : String) :
  ofResolved text' (Resolved.bareFrom 0 resolved) = { ofResolved text resolved with text := text' }
  := by
  have hfields : (ofResolved text' (Resolved.bareFrom 0 resolved)).fields
      = (ofResolved text resolved).fields :=
    Resolved.filterMap_field_bareFrom 0 resolved
  have hwritten : (ofResolved text' (Resolved.bareFrom 0 resolved)).written
      = (ofResolved text resolved).written :=
    congrArg String.ofList (Resolved.flatMap_written_bareFrom h.sound 0)
  have hline : (ofResolved text' (Resolved.bareFrom 0 resolved)).line
      = (ofResolved text resolved).line := by
    obtain ⟨-, -, hread⟩ := ofResolved_spec h
    obtain ⟨-, -, hread'⟩ := ofResolved_spec h.bareFrom
    apply Except.ok.inj
    rw [← hread, ← hwritten]
    apply hread'.symm
  exact (Format.mk.injEq _ _ _ _ _ _ _ _).mpr ⟨rfl, hfields, hwritten, hline⟩

/-- Modifiers do not matter.  If a format is compiled, so is the format in which every directive
word is `%` and the key alone, with the parameter between them if it is a time, and in which the
literal texts are the same.  It has the same pattern, the same fields and the same columns.  So
when both are bound to a sink, they get the same columns, and every raw line has the same result
with both. -/
theorem compile_bareText {reader : TimeReader} {text : String} {f : Format}
    (h : compile reader text = .ok f) :
  ∃ segments g, Segment.scan text = .ok segments ∧ compile reader (bareText segments) = .ok g
    ∧ g.text = bareText segments ∧ g.written = f.written ∧ g.line = f.line ∧ g.fields = f.fields
    ∧ g.columnNames = f.columnNames
    ∧ ∀ {σ : Type} [Sink σ] (unbound s : σ) (maxLineSize : Nat) (raw : Bytes),
        (Extractor.bind g unbound).2 = (Extractor.bind f unbound).2
          ∧ (Extractor.bind g unbound).1.columns = (Extractor.bind f unbound).1.columns
          ∧ { (Extractor.bind g unbound).1 with maxLineSize := maxLineSize }.feed raw s
            = { (Extractor.bind f unbound).1 with maxLineSize := maxLineSize }.feed raw s
  := by
  obtain ⟨resolved, hresolves, rfl⟩ := compile_eq_ok_iff.1 h
  have hcompile := compile_of_resolves hresolves.bareFrom
  rw [ofResolved_bareFrom hresolves] at hcompile
  refine ⟨_, _, hresolves.scan, hcompile, rfl, rfl, rfl, rfl, rfl, ?_⟩
  intro σ _ unbound s maxLineSize raw
  exact ⟨rfl, rfl, rfl⟩

/-- Of a header, a time and a percent sign with modifiers, the keys and the parameter of the time
are left. -/
theorem compile_bareText_header :
  ∃ f g, compile (fun _ _ => .error "") "%!200,304\x7ba%\x7di<%>\x7bsec\x7dt%200%" = .ok f
    ∧ compile (fun _ _ => .error "") "%i<%\x7bsec\x7dt%%" = .ok g
    ∧ g.written = f.written ∧ g.columnNames = f.columnNames
    ∧ ∀ raw, (Extractor.bind g RecordSink.empty).1.feed raw RecordSink.empty
        = (Extractor.bind f RecordSink.empty).1.feed raw RecordSink.empty
  := by
  let segments : List Segment :=
    [⟨0, "%!200,304\x7ba%\x7di".toList, some ⟨'i', some "a%", true, [200, 304], none⟩⟩,
      ⟨14, ['<'], none⟩,
      ⟨15, "%>\x7bsec\x7dt".toList, some ⟨'t', some "sec", false, [], some .last⟩⟩,
      ⟨23, "%200%".toList, some ⟨'%', none, false, [200], none⟩⟩]
  have hscan : Segment.scan "%!200,304\x7ba%\x7di<%>\x7bsec\x7dt%200%" = .ok segments := by cbv
  have hbare : bareText segments = "%i<%\x7bsec\x7dt%%" := by cbv
  obtain ⟨resolved, -, hresolves⟩ := exists_resolves (fun _ _ => .error "") hscan (by cbv)
  have hcompile := compile_of_resolves hresolves
  obtain ⟨_, g, hsegments, hg, -, hwritten, -, -, hcolumns, hresults⟩ :=
    compile_bareText hcompile
  cases hscan.symm.trans hsegments
  rw [hbare] at hg
  exact ⟨_, g, hcompile, hg, hwritten, hcolumns,
    fun raw => (hresults RecordSink.empty RecordSink.empty defaultMaxLineSize raw).2.2⟩

end Format

end LogFormat
