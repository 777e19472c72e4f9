import LogFormat.Format.Compiled
import LogFormat.Proofs.Directive.Tiling

/-!
# Splicing the segments of a format

A splice whose range, moved by the drift, is a known part of the text replaces that part
(`splice_eq`).  So the splices of the segments of a format rewrite it to the written
patterns of its segments, one after the other (`spliceAll_segments`).
-/

namespace LogFormat

/-- Cut after a text, the text is the first part. -/
theorem cutBytes_utf8Length (cs ds : List Char) :
  cutBytes (utf8Length cs) (cs ++ ds) = (cs, ds)
  := by
  induction cs with
  | nil =>
    cases ds with
    | nil => rfl
    | cons d ds =>
      have := d.utf8Size_pos
      rw [List.nil_append, cutBytes, if_neg (by simp; omega)]
  | cons c cs ih =>
    rw [List.cons_append, cutBytes, utf8Length_cons, if_pos (Nat.le_add_right _ _),
      Nat.add_sub_cancel_left, ih]

/-- A splice replaces the part of the text at its range. -/
theorem splice_eq {before old after text : List Char} {drift : Int} {start : Nat}
    (h : start + drift = utf8Length before) :
  Spliced.splice ⟨before ++ old ++ after, drift⟩ ⟨⟨start, start + utf8Length old⟩, text⟩
    = ⟨before ++ text ++ after, drift + (utf8Length text - utf8Length old)⟩
  := by
  have hstart : (start + drift).toNat = utf8Length before := by
    rw [h, Int.toNat_natCast]
  have hstop : ((start + utf8Length old : Nat) + drift).toNat = utf8Length (before ++ old) := by
    rw [utf8Length_append]
    omega
  have hcut₁ := cutBytes_utf8Length before (old ++ after)
  have hcut₂ := cutBytes_utf8Length (before ++ old) after
  rw [← List.append_assoc] at hcut₁
  simp only [Spliced.splice, Spliced.moved, replaceBytes, hstart, hstop, hcut₁, hcut₂]
  rw [Int.natCast_add, Int.add_comm (start : Int), Int.add_sub_cancel]

namespace Resolved

/-- The written pattern of the texts that a segment stands for. -/
def written (r : Resolved) : List Char :=
  match r.field with
  | some field => field.subPattern.toList
  | none => quote r.segment.text

/-- A segment without a splice is its own written pattern. -/
theorem written_of_splice?_eq_none {r : Resolved} (h : r.splice? = none) :
  r.written = r.segment.text
  := by
  cases hfield : r.field with
  | some field =>
    rw [splice?, hfield] at h
    cases h
  | none =>
    simp only [splice?, hfield] at h
    simp only [written, hfield]
    split at h
    · next hquote => exact hquote
    · cases h

/-- The splice of a segment puts its written pattern in its place. -/
theorem eq_of_splice?_eq_some {r : Resolved} {p : Splice} (h : r.splice? = some p) :
  p = ⟨r.segment.span, r.written⟩
  := by
  cases hfield : r.field with
  | some field =>
    simp only [splice?, hfield] at h
    simp only [written, hfield]
    apply (Option.some.inj h).symm
  | none =>
    simp only [splice?, hfield] at h
    simp only [written, hfield]
    split at h
    · cases h
    · apply (Option.some.inj h).symm

/-- The splices of segments rewrite them in order, after what is already rewritten. -/
theorem foldl_splice_segments
    {resolved : List Resolved} {start : Nat} {drift : Int} {done : List Char}
    (hrun : Segment.Consecutive start (resolved.map (·.segment)))
    (hdrift : start + drift = utf8Length done) :
  ((resolved.filterMap (·.splice?)).foldl Spliced.splice
      ⟨done ++ resolved.flatMap (·.segment.text), drift⟩).text
    = done ++ resolved.flatMap written
  := by
  induction resolved generalizing start drift done with
  | nil => simp
  | cons r resolved ih =>
    rw [List.map_cons] at hrun
    obtain ⟨hstart, hrun⟩ := hrun
    rw [List.filterMap_cons, List.flatMap_cons, List.flatMap_cons, ← List.append_assoc,
      ← List.append_assoc]
    cases hr : r.splice? with
    | none =>
      rw [written_of_splice?_eq_none hr]
      apply ih hrun
      rw [utf8Length_append]
      omega
    | some p =>
      rw [eq_of_splice?_eq_some hr, List.foldl_cons, Segment.span, hstart, splice_eq hdrift]
      apply ih hrun
      rw [utf8Length_append]
      omega

/-- The splices of all segments of a text rewrite it to their written patterns. -/
theorem spliceAll_segments {resolved : List Resolved} {cs : List Char}
    (h : Segment.Tiles 0 (resolved.map (·.segment)) cs) :
  spliceAll cs (resolved.filterMap (·.splice?)) = resolved.flatMap written
  := by
  have htext : cs = resolved.flatMap (·.segment.text) := by
    rw [← h.text_eq, List.flatMap_map]
  rw [htext, spliceAll]
  have hstart : (0 : Nat) + (0 : Int) = utf8Length ([] : List Char) := rfl
  apply foldl_splice_segments h.consecutive hstart

end Resolved

end LogFormat
