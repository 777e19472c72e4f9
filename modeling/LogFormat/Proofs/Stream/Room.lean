import LogFormat.Stream.Run

/-!
# Outputs with enough room

An output takes bytes without failing as long as there is room for them
(`write_of_hasRoom`).  So a record and its line feed are written as a whole if there is
room for both (`emit_of_hasRoom`).
-/

namespace LogFormat

namespace Output

/-- There is room for so many bytes more. -/
def HasRoom (o : Output) (size : Nat) : Prop :=
  ∀ room, o.room = some room → size ≤ room

/-- An output without a limit has room for everything. -/
theorem hasRoom_of_room_eq_none {o : Output} (h : o.room = none) (size : Nat) :
  o.HasRoom size
  := by
  intro room hroom
  rw [h] at hroom
  cases hroom

/-- The output after bytes for which there is room. -/
def put (o : Output) (bytes : ByteArray) : Output :=
  { o with written := o.written ++ bytes, room := o.room.map (· - bytes.size) }

@[simp]
theorem put_empty (o : Output) :
  o.put .empty = o
  := by
  obtain ⟨written, room, writeFailure, flushFailure⟩ := o
  cases room <;> simp [put]

/-- Bytes put one after the other are put as a whole. -/
theorem put_put (o : Output) (first second : ByteArray) :
  (o.put first).put second = o.put (first ++ second)
  := by
  obtain ⟨written, room, writeFailure, flushFailure⟩ := o
  cases room <;> simp [put, ByteArray.append_assoc, Nat.sub_sub]

/-- Room for bytes one after the other is room for the first of them, and room for the
second after them. -/
theorem hasRoom_append {o : Output} {first second : ByteArray}
    (h : o.HasRoom (first ++ second).size) :
  o.HasRoom first.size ∧ (o.put first).HasRoom second.size
  := by
  rw [ByteArray.size_append] at h
  constructor
  · intro room hroom
    have := h room hroom
    omega
  · intro room hroom
    obtain ⟨room', hroom', rfl⟩ := Option.map_eq_some_iff.1 hroom
    have := h room' hroom'
    omega

/-- Bytes for which there is room are written. -/
theorem write_of_hasRoom {o : Output} {bytes : ByteArray} (h : o.HasRoom bytes.size) :
  o.write bytes = (.ok (), o.put bytes)
  := by
  rw [write]
  split
  · next hroom => simp [put, hroom]
  · next room hroom => simp [put, hroom, h room hroom]

end Output

/-- The bytes of a record: its JSON text and a line feed. -/
def Record.bytes (r : Record) : ByteArray :=
  (String.ofList r.json).toUTF8 ++ ⟨#[lineFeed]⟩

/-- The bytes of records one after the other. -/
def recordsBytes (records : List Record) : ByteArray :=
  records.foldr (fun r bytes => r.bytes ++ bytes) .empty

/-- A record is written as a whole if there is room for it. -/
theorem Progress.emit_of_hasRoom {r : Record} {o : Output} (h : o.HasRoom r.bytes.size) :
  emit r o = (.ok (), o.put r.bytes)
  := by
  obtain ⟨hjson, hlineFeed⟩ := Output.hasRoom_append h
  have hwrite := Output.write_of_hasRoom hlineFeed
  rw [Output.put_put, ← Record.bytes] at hwrite
  simp only [emit, Output.write_of_hasRoom hjson, hwrite]

end LogFormat
