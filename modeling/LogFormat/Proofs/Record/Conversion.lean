import LogFormat.Proofs.Record.Row
import LogFormat.Proofs.Text.Bytes

/-!
# From the words of a line to its record

If the groups of a line are found to be some words, and the words convert to values, then
the record of the line has these values (`freshRecord_encode`).
-/

namespace LogFormat

/-- The words convert to the values of the fields, one after the other. -/
inductive Converts : List Field → List (List Char) → List Value → Prop
  | nil : Converts [] [] []
  | cons {field : Field} {word : List Char} {value : Value} {fields : List Field}
    {words : List (List Char)} {values : List Value} :
    field.convert (String.ofList word) = .ok value → Converts fields words values →
      Converts (field :: fields) (word :: words) (value :: values)

/-- The first capture is converted by the first field. -/
theorem Extractor.convertAll_cons (index : Nat) (field : Field) (fields : List Field)
    (c : Capture) (captures : List (Option Capture)) :
  convertAll index (field :: fields) (some c :: captures)
    = (field.convert (String.ofList c.text)).mapError (.field index field.name) >>= fun value =>
        convertAll (index + 1) fields captures >>= fun values => .ok (value :: values)
  := rfl

/-- Captures whose texts convert to values are converted to them. -/
theorem Converts.convertAll {fields : List Field} {found : List Capture} {values : List Value}
    (h : Converts fields (found.map (·.text)) values) (index : Nat) :
  Extractor.convertAll index fields (found.map some) = .ok values
  := by
  generalize hwords : found.map (·.text) = words at h
  induction h generalizing found index with
  | nil =>
    rw [List.map_eq_nil_iff.1 hwords]
    rfl
  | cons hvalue _ ih =>
    obtain ⟨c, others, rfl, rfl, rfl⟩ := List.map_eq_cons_iff.1 hwords
    rw [List.map_cons, Extractor.convertAll_cons]
    simp only [hvalue, Except.mapError, bind, Except.bind, ih (index + 1) rfl]

/-- A line of text that does not end with a carriage return has the record of the values of
its words. -/
theorem Format.freshRecord_encode {f : Format} {maxLineSize : Nat} {line : List Char}
    {found : List Capture} {values : List Value} (hsize : utf8Length line ≤ maxLineSize)
    (hreturn : line.getLast? ≠ some '\r')
    (hcaptures : f.line.captures? (String.ofList line) = some (found.map some))
    (hvalues : Converts f.fields (found.map (·.text)) values) :
  f.freshRecord maxLineSize (encode (String.ofList line)) = .ok ⟨f.columnNames.zip values⟩
  := by
  have hlineValues : (f.extractor maxLineSize).lineValues (encode (String.ofList line))
      = .ok values := by
    have hwithout : Extractor.withoutReturn (String.ofList line) = String.ofList line := by
      simp only [Extractor.withoutReturn, String.toList_ofList, if_neg hreturn]
    have hlarge : ¬maxLineSize < (encode (String.ofList line)).length := by
      rw [length_encode]
      omega
    rw [Extractor.lineValues]
    simp only [Format.extractor, if_neg hlarge, decode?_encode, hwithout,
      Extractor.textValues, hcaptures, hvalues.convertAll]
  rw [freshRecord_eq, hlineValues]
  rfl

end LogFormat
