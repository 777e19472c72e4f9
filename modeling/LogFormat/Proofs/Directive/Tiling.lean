import LogFormat.Directive.Segment
import LogFormat.Proofs.Results

/-!
# The segments of a format tile it

The texts of the segments that `Segment.scan` finds, one after the other, are the format,
and every segment starts where the one before it ends (`scanFrom_tiles`).
-/

namespace LogFormat.Segment

/-- The segments follow one another from a position on. -/
def Consecutive : Nat → List Segment → Prop
  | _, [] => True
  | start, s :: segments => s.start = start ∧ Consecutive (start + utf8Length s.text) segments

/-- Segments tile a text from a position on if their texts make it up and they follow one
another. -/
structure Tiles (start : Nat) (segments : List Segment) (cs : List Char) : Prop where
  text_eq : segments.flatMap (·.text) = cs
  consecutive : Consecutive start segments

theorem tiles_cons {start : Nat} {text cs : List Char} {directive : Option Directive}
    {segments : List Segment} (h : Tiles (start + utf8Length text) segments cs) :
  Tiles start (⟨start, text, directive⟩ :: segments) (text ++ cs)
  := ⟨by rw [List.flatMap_cons, h.text_eq], rfl, h.consecutive⟩

/-- A `%` that begins no directive word is where the scan ends. -/
theorem scanFrom_malformed {start : Nat} {ds : List Char} (h : Directive.read? ds = none) :
  scanFrom start ('%' :: ds) = .error start
  := by
  rw [scanFrom]
  split
  · rfl
  · next h' => rw [h] at h'; cases h'

/-- A directive word is one segment. -/
theorem scanFrom_directive {start : Nat} {word rest : List Char} {directive : Directive}
    (h : Directive.read? (word ++ rest) = some (directive, rest)) :
  scanFrom start ('%' :: (word ++ rest))
    = scanFrom (start + utf8Length ('%' :: word)) rest >>= fun segments =>
        .ok (⟨start, '%' :: word, some directive⟩ :: segments)
  := by
  rw [scanFrom]
  split
  · next h' => rw [h] at h'; cases h'
  · next directive' rest' h' =>
    rw [h] at h'
    cases h'
    simp

/-- Text without a `%`, up to a `%` or the end, is one segment. -/
theorem scanFrom_literal {start : Nat} {c : Char} {cs : List Char} (h : c ≠ '%') :
  scanFrom start (c :: cs)
    = scanFrom (start + utf8Length (c :: cs.takeWhile isLiteral)) (cs.dropWhile isLiteral)
        >>= fun segments => .ok (⟨start, c :: cs.takeWhile isLiteral, none⟩ :: segments)
  := by
  rw [scanFrom]
  apply h

/-- The segments that are found tile the text. -/
theorem scanFrom_tiles {start : Nat} {cs : List Char} {segments : List Segment}
    (h : scanFrom start cs = .ok segments) :
  Tiles start segments cs
  := by
  induction hn : cs.length using Nat.strongRecOn generalizing start cs segments with
  | ind n ih =>
    cases cs with
    | nil =>
      rw [scanFrom] at h
      cases h
      exact ⟨rfl, trivial⟩
    | cons c ds =>
      rw [List.length_cons] at hn
      by_cases hc : c = '%'
      · subst hc
        cases hread : Directive.read? ds with
        | none =>
          rw [scanFrom_malformed hread] at h
          cases h
        | some found =>
          obtain ⟨directive, rest⟩ := found
          obtain ⟨word, rfl⟩ := (List.suffix_cons _ _).trans (Directive.read?_suffix hread)
          rw [scanFrom_directive hread] at h
          obtain ⟨others, hrest, hothers⟩ := bind_eq_ok.1 h
          cases hothers
          apply tiles_cons (ih rest.length _ hrest rfl)
          rw [List.length_append] at hn
          omega
      · rw [scanFrom_literal hc] at h
        obtain ⟨others, hrest, hothers⟩ := bind_eq_ok.1 h
        cases hothers
        have htext : (c :: ds.takeWhile isLiteral) ++ ds.dropWhile isLiteral = c :: ds := by
          rw [List.cons_append, List.takeWhile_append_dropWhile]
        rw [← htext]
        apply tiles_cons (ih (ds.dropWhile isLiteral).length _ hrest rfl)
        have := (List.dropWhile_suffix (l := ds) isLiteral).length_le
        omega

/-- The segments of a format tile it. -/
theorem scan_tiles {format : String} {segments : List Segment}
    (h : scan format = .ok segments) :
  Tiles 0 segments format.toList
  := scanFrom_tiles h

end LogFormat.Segment
