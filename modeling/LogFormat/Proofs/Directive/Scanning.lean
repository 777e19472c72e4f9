import LogFormat.Proofs.Directive.Grammar
import LogFormat.Proofs.Directive.Tiling
import LogFormat.Proofs.Text.Bytes
import Mathlib.Data.List.Chain

/-!
# What scanning a format accepts

A format is well-formed if it is put together from directive words and from characters
other than `%`, and it can be put together so in one way only.  Scanning finds that way, and
gathers the characters between directive words into literal texts.  In a format that is not
well-formed it finds the first `%` that begins no directive word (`scan_outcome`).
-/

namespace LogFormat

/-- What formats are put together from: a directive word, or a character that stands for
itself. -/
inductive Piece where
  | word (d : Directive)
  | char (c : Char)

namespace Piece

/-- The text of a piece. -/
def text : Piece → List Char
  | word d => d.text
  | char c => [c]

/-- The directive of a piece can be written, and `%` does not stand for itself. -/
def Valid : Piece → Prop
  | word d => d.Valid
  | char c => c ≠ '%'

end Piece

/-- The text is put together from the pieces. -/
structure Decomposes (pieces : List Piece) (cs : List Char) : Prop where
  valid : ∀ p ∈ pieces, p.Valid
  text_eq : pieces.flatMap (·.text) = cs

theorem decomposes_nil :
  Decomposes [] []
  := ⟨by simp, rfl⟩

theorem decomposes_cons {p : Piece} {pieces : List Piece} {cs : List Char} :
  Decomposes (p :: pieces) cs
    ↔ p.Valid ∧ ∃ rest, Decomposes pieces rest ∧ p.text ++ rest = cs
  := by
  constructor
  · rintro ⟨hvalid, rfl⟩
    obtain ⟨hp, hpieces⟩ := List.forall_mem_cons.1 hvalid
    exact ⟨hp, _, ⟨hpieces, rfl⟩, rfl⟩
  · rintro ⟨hp, rest, ⟨hpieces, rfl⟩, rfl⟩
    exact ⟨List.forall_mem_cons.2 ⟨hp, hpieces⟩, rfl⟩

/-- Nothing is put together from no pieces only. -/
theorem eq_nil_of_decomposes {pieces : List Piece} (h : Decomposes pieces []) :
  pieces = []
  := by
  cases pieces with
  | nil => rfl
  | cons p pieces =>
    obtain ⟨-, rest, -, htext⟩ := decomposes_cons.1 h
    cases p <;> cases htext

/-- A text that begins with `%` is put together from a directive word and the rest. -/
theorem decomposes_percent {pieces : List Piece} {cs : List Char} :
  Decomposes pieces ('%' :: cs)
    ↔ ∃ d rest others, Directive.read? cs = some (d, rest) ∧ pieces = .word d :: others
        ∧ Decomposes others rest
  := by
  constructor
  · intro h
    cases pieces with
    | nil => cases h.text_eq
    | cons p pieces =>
      obtain ⟨hp, rest, hrest, htext⟩ := decomposes_cons.1 h
      cases p with
      | word d =>
        cases htext
        exact ⟨d, rest, pieces, Directive.read?_body hp rest, rfl, hrest⟩
      | char c =>
        obtain ⟨hc, -⟩ := List.cons_eq_cons.1 htext
        exact absurd hc hp
  · rintro ⟨d, rest, others, hread, rfl, hothers⟩
    obtain ⟨hd, rfl⟩ := Directive.eq_of_read? hread
    exact decomposes_cons.2 ⟨hd, rest, hothers, rfl⟩

/-- Text without `%` is put together from its characters. -/
theorem decomposes_literal {literal : List Char} (hliteral : '%' ∉ literal)
    {pieces : List Piece} {cs : List Char} :
  Decomposes pieces (literal ++ cs)
    ↔ ∃ others, pieces = literal.map .char ++ others ∧ Decomposes others cs
  := by
  induction literal generalizing pieces with
  | nil => simp
  | cons c literal ih =>
    rw [List.mem_cons, not_or] at hliteral
    constructor
    · intro h
      cases pieces with
      | nil => cases h.text_eq
      | cons p pieces =>
        obtain ⟨hp, rest, hrest, htext⟩ := decomposes_cons.1 h
        cases p with
        | word d =>
          obtain ⟨hc, -⟩ := List.cons_eq_cons.1 htext
          exact absurd hc hliteral.1
        | char c' =>
          cases htext
          obtain ⟨others, rfl, hothers⟩ := (ih hliteral.2).1 hrest
          exact ⟨others, rfl, hothers⟩
    · rintro ⟨others, rfl, hothers⟩
      have hrest := (ih hliteral.2).2 ⟨others, rfl, hothers⟩
      exact decomposes_cons.2 ⟨Ne.symm hliteral.1, _, hrest, rfl⟩

namespace Segment

/-- The pieces of a segment: its directive word, or its characters. -/
def pieces (s : Segment) : List Piece :=
  match s.directive with
  | some d => [.word d]
  | none => s.text.map .char

/-- The segment is a directive word with what it says, or literal text, which is not empty
and has no `%`. -/
def WellFormed (s : Segment) : Prop :=
  match s.directive with
  | some d => d.Valid ∧ s.text = d.text
  | none => s.text ≠ [] ∧ '%' ∉ s.text

/-- No two literal texts are next to each other. -/
def Alternating (segments : List Segment) : Prop :=
  segments.IsChain fun s t => s.directive.isSome ∨ t.directive.isSome

/-- A literal text ends before the next `%`. -/
theorem not_mem_literal {c : Char} (hc : c ≠ '%') (cs : List Char) :
  '%' ∉ c :: cs.takeWhile isLiteral
  := by
  rw [List.mem_cons, not_or]
  refine ⟨Ne.symm hc, fun h => ?_⟩
  have hliteral := List.mem_takeWhile_imp h
  simp [isLiteral] at hliteral

/-- A text that does not begin with `%` is a literal text and what follows it. -/
theorem eq_literal_append (c : Char) (cs : List Char) :
  c :: cs = (c :: cs.takeWhile isLiteral) ++ cs.dropWhile isLiteral
  := by
  rw [List.cons_append, List.takeWhile_append_dropWhile]

/-- What follows a literal text is nothing, or begins with `%`. -/
theorem head?_dropWhile_isLiteral (cs : List Char) :
  ∀ c ∈ (cs.dropWhile isLiteral).head?, c = '%'
  := by
  intro c hc
  have := List.head?_dropWhile_not isLiteral cs
  rw [Option.mem_def.1 hc] at this
  simpa [isLiteral] using this

/-- A segment that is found at a `%` is a directive word. -/
theorem isSome_directive_of_scanFrom {start : Nat} {cs : List Char} {s : Segment}
    {segments : List Segment} (hcs : ∀ c ∈ cs.head?, c = '%')
    (h : scanFrom start cs = .ok (s :: segments)) :
  s.directive.isSome
  := by
  cases cs with
  | nil =>
    rw [scanFrom] at h
    cases h
  | cons c ds =>
    obtain rfl : c = '%' := hcs c rfl
    cases hread : Directive.read? ds with
    | none =>
      rw [scanFrom_malformed hread] at h
      cases h
    | some found =>
      obtain ⟨-, rfl⟩ := Directive.eq_of_read? hread
      rw [scanFrom_directive hread] at h
      obtain ⟨others, -, h⟩ := bind_eq_ok.1 h
      cases h
      rfl

/-- The text of a directive word is cut off at the right place. -/
theorem take_of_read? {ds rest : List Char} {d : Directive}
    (h : Directive.read? ds = some (d, rest)) :
  ds.take (ds.length - rest.length) = d.body
  := by
  obtain ⟨-, rfl⟩ := Directive.eq_of_read? h
  simp

/-- The segments that are found are well-formed, and literal texts are not divided. -/
theorem wellFormed_of_scanFrom {start : Nat} {cs : List Char} {segments : List Segment}
    (h : scanFrom start cs = .ok segments) :
  (∀ s ∈ segments, s.WellFormed) ∧ Alternating segments
  := by
  fun_induction scanFrom start cs generalizing segments with
  | case1 start =>
    cases h
    exact ⟨by simp, .nil⟩
  | case2 start ds hread => cases h
  | case3 start ds d rest hread text =>
    rename_i ih
    obtain ⟨others, hothers, h⟩ := bind_eq_ok.1 h
    obtain ⟨hwellFormed, halternating⟩ := ih hothers
    have htext : text = d.text := congrArg ('%' :: ·) (take_of_read? hread)
    cases h
    refine ⟨List.forall_mem_cons.2 ⟨⟨(Directive.eq_of_read? hread).1, htext⟩, hwellFormed⟩, ?_⟩
    exact List.isChain_cons.2 ⟨fun _ _ => Or.inl rfl, halternating⟩
  | case4 start c ds hc text =>
    rename_i ih
    obtain ⟨others, hothers, h⟩ := bind_eq_ok.1 h
    obtain ⟨hwellFormed, halternating⟩ := ih hothers
    cases h
    refine ⟨List.forall_mem_cons.2 ⟨⟨by simp [text], not_mem_literal hc ds⟩, hwellFormed⟩, ?_⟩
    refine List.isChain_cons.2 ⟨?_, halternating⟩
    intro s hs
    obtain ⟨others, rfl⟩ := List.head?_eq_some_iff.1 hs
    exact Or.inr (isSome_directive_of_scanFrom (head?_dropWhile_isLiteral ds) hothers)

/-- A text in which segments are found is put together from their pieces, and in no other
way. -/
theorem decomposes_iff_of_scanFrom {start : Nat} {cs : List Char} {segments : List Segment}
    (h : scanFrom start cs = .ok segments) (pieces : List Piece) :
  Decomposes pieces cs ↔ pieces = segments.flatMap (·.pieces)
  := by
  fun_induction scanFrom start cs generalizing segments pieces with
  | case1 start =>
    cases h
    constructor
    · apply eq_nil_of_decomposes
    · rintro rfl
      apply decomposes_nil
  | case2 start ds hread => cases h
  | case3 start ds d rest hread text =>
    rename_i ih
    obtain ⟨others, hothers, h⟩ := bind_eq_ok.1 h
    cases h
    rw [decomposes_percent, List.flatMap_cons]
    constructor
    · rintro ⟨_, _, pieces, hread', rfl, hpieces⟩
      cases hread.symm.trans hread'
      rw [(ih hothers pieces).1 hpieces]
      rfl
    · rintro rfl
      exact ⟨d, rest, _, hread, rfl, (ih hothers _).2 rfl⟩
  | case4 start c ds hc text =>
    rename_i ih
    obtain ⟨others, hothers, h⟩ := bind_eq_ok.1 h
    cases h
    rw [eq_literal_append c ds, decomposes_literal (not_mem_literal hc ds), List.flatMap_cons]
    simp only [ih hothers, exists_eq_right]
    rfl

/-- Segments are found in every text that is put together from pieces. -/
theorem exists_scanFrom_of_decomposes {pieces : List Piece} {cs : List Char}
    (h : Decomposes pieces cs) (start : Nat) :
  ∃ segments, scanFrom start cs = .ok segments
  := by
  fun_induction scanFrom start cs generalizing pieces with
  | case1 start => exact ⟨[], rfl⟩
  | case2 start ds hread =>
    obtain ⟨d, rest, -, hread', -, -⟩ := decomposes_percent.1 h
    rw [hread] at hread'
    cases hread'
  | case3 start ds d rest hread text =>
    rename_i ih
    obtain ⟨_, _, others, hread', -, hothers⟩ := decomposes_percent.1 h
    cases hread.symm.trans hread'
    obtain ⟨segments, hsegments⟩ := ih hothers
    exact ⟨_, bind_eq_ok.2 ⟨segments, hsegments, rfl⟩⟩
  | case4 start c ds hc text =>
    rename_i ih
    rw [eq_literal_append c ds, decomposes_literal (not_mem_literal hc ds)] at h
    obtain ⟨others, -, hothers⟩ := h
    obtain ⟨segments, hsegments⟩ := ih hothers
    exact ⟨_, bind_eq_ok.2 ⟨segments, hsegments, rfl⟩⟩

/-- The place that is found in a malformed text is that of a `%` which begins no directive
word, and the text before it is put together from pieces. -/
theorem eq_append_of_scanFrom {start offset : Nat} {cs : List Char}
    (h : scanFrom start cs = .error offset) :
  ∃ before rest, cs = before ++ '%' :: rest ∧ offset = start + utf8Length before
    ∧ (∃ pieces, Decomposes pieces before) ∧ Directive.read? rest = none
  := by
  fun_induction scanFrom start cs with
  | case1 start => cases h
  | case2 start ds hread =>
    cases h
    exact ⟨[], ds, rfl, rfl, ⟨[], decomposes_nil⟩, hread⟩
  | case3 start ds d rest hread text =>
    rename_i ih
    obtain ⟨before, rest', rfl, rfl, ⟨pieces, hpieces⟩, hnone⟩ := ih (error_of_bind h)
    have htext : text = d.text := congrArg ('%' :: ·) (take_of_read? hread)
    obtain ⟨hd, rfl⟩ := Directive.eq_of_read? hread
    refine ⟨d.text ++ before, rest', ?_, ?_, ⟨.word d :: pieces, ?_⟩, hnone⟩
    · simp [Directive.text]
    · rw [htext, utf8Length_append, Nat.add_assoc]
    · exact decomposes_cons.2 ⟨hd, before, hpieces, rfl⟩
  | case4 start c ds hc text =>
    rename_i ih
    obtain ⟨before, rest, hrest, rfl, ⟨pieces, hpieces⟩, hnone⟩ := ih (error_of_bind h)
    refine ⟨text ++ before, rest, ?_, ?_, ⟨text.map .char ++ pieces, ?_⟩, hnone⟩
    · rw [eq_literal_append c ds, hrest, List.append_assoc]
    · rw [utf8Length_append, Nat.add_assoc]
    · exact (decomposes_literal (not_mem_literal hc ds)).2 ⟨pieces, rfl, hpieces⟩

/-- Scanning accepts exactly the texts that are put together from directive words and from
characters other than `%`, and it finds the only way in which a text is: the segments tile
the text, each is a directive word with what the word says or a literal text without `%`, and
literal texts are not divided.  In all other texts it finds the place of a `%` that begins no
directive word, and before which the text is accepted. -/
theorem scan_outcome (format : String) :
  match scan format with
  | .ok segments =>
    Tiles 0 segments format.toList ∧ (∀ s ∈ segments, s.WellFormed) ∧ Alternating segments
      ∧ ∀ pieces, Decomposes pieces format.toList ↔ pieces = segments.flatMap (·.pieces)
  | .error offset =>
    (∀ pieces, ¬Decomposes pieces format.toList)
      ∧ ∃ before rest, format.toList = before ++ '%' :: rest ∧ utf8Length before = offset
        ∧ (∃ segments, scan (String.ofList before) = .ok segments)
        ∧ ∀ d : Directive, d.Valid → ¬d.text <+: '%' :: rest
  := by
  split
  · next segments h =>
    obtain ⟨hwellFormed, halternating⟩ := wellFormed_of_scanFrom h
    exact ⟨scan_tiles h, hwellFormed, halternating, decomposes_iff_of_scanFrom h⟩
  · next offset h =>
    obtain ⟨before, rest, hbefore, hoffset, ⟨pieces, hpieces⟩, hnone⟩ :=
      eq_append_of_scanFrom h
    refine ⟨fun pieces hpieces => ?_, before, rest, hbefore, ?_, ?_, ?_⟩
    · obtain ⟨segments, hsegments⟩ := exists_scanFrom_of_decomposes hpieces 0
      cases h.symm.trans hsegments
    · rw [hoffset, Nat.zero_add]
    · rw [scan, String.toList_ofList]
      apply exists_scanFrom_of_decomposes hpieces
    · rintro d hd ⟨after, heq⟩
      obtain ⟨-, hrest⟩ := List.cons_eq_cons.1 heq
      change d.body ++ after = rest at hrest
      have hread := Directive.read?_body hd after
      rw [hrest, hnone] at hread
      cases hread

end Segment

end LogFormat
