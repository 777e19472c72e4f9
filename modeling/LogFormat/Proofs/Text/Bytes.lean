import LogFormat.Text.Bytes

/-!
# Texts as bytes

The bytes of a text are those of its characters one after the other (`encode_ofList`), and
are decoded to the text (`decode?_encode`).  A byte below 128 is that of the character with
the same number (`eq_of_mem_utf8EncodeChar`), and at the end of other bytes it is decoded by
itself (`decode?_append_singleton`).
-/

namespace LogFormat

/-- The bytes of a text are those of its characters. -/
theorem encode_ofList (cs : List Char) :
  encode (String.ofList cs) = cs.flatMap String.utf8EncodeChar
  := by
  rw [encode, String.toUTF8_eq_toByteArray, String.toByteArray_ofList, List.utf8Encode,
    List.data_toByteArray]

theorem encode_append (cs ds : List Char) :
  encode (String.ofList (cs ++ ds)) = encode (String.ofList cs) ++ encode (String.ofList ds)
  := by
  simp only [encode_ofList, List.flatMap_append]

/-- The bytes of a text are decoded to the text. -/
theorem decode?_encode (text : String) :
  decode? (encode text) = some text
  := by
  have hbytes : (⟨(encode text).toArray⟩ : ByteArray) = text.toByteArray := rfl
  rw [decode?, hbytes, String.fromUTF8?, dif_pos text.isValidUTF8]
  rfl

/-- A text has as many bytes as its characters have together. -/
theorem length_encode (cs : List Char) :
  (encode (String.ofList cs)).length = utf8Length cs
  := by
  rw [encode_ofList]
  induction cs with
  | nil => rfl
  | cons c cs ih =>
    rw [List.flatMap_cons, List.length_append, ih, String.length_utf8EncodeChar,
      utf8Length_cons]

/-- A text does not have fewer bytes than characters. -/
theorem length_le_utf8Length (cs : List Char) :
  cs.length ≤ utf8Length cs
  := by
  induction cs with
  | nil => exact Nat.le_refl 0
  | cons c cs ih =>
    have := c.utf8Size_pos
    rw [List.length_cons, utf8Length_cons]
    omega

/-- A byte below 128 of a character is the number of the character. -/
theorem eq_of_mem_utf8EncodeChar {byte : UInt8} {c : Char}
    (h : byte ∈ String.utf8EncodeChar c) (hbyte : byte.toNat < 128) :
  c.toNat = byte.toNat
  := by
  change c.val.toNat = byte.toNat
  revert h
  -- Every byte of a character of more than one byte is 128 or more.
  fun_cases String.utf8EncodeChar c <;> intro h <;>
    simp only [List.mem_cons, List.not_mem_nil, or_false] at h
  · rw [h, UInt8.toNat_ofNat']
    omega
  · rcases h with rfl | rfl <;> rw [UInt8.toNat_ofNat'] at hbyte <;> omega
  · rcases h with rfl | rfl | rfl <;> rw [UInt8.toNat_ofNat'] at hbyte <;> omega
  · rcases h with rfl | rfl | rfl | rfl <;> rw [UInt8.toNat_ofNat'] at hbyte <;> omega

/-- The byte of a character below 128 only comes from that character. -/
theorem mem_of_mem_encode {byte : UInt8} {c : Char} {cs : List Char} (hbyte : byte.toNat < 128)
    (hc : c.toNat = byte.toNat) (h : byte ∈ encode (String.ofList cs)) :
  c ∈ cs
  := by
  rw [encode_ofList] at h
  obtain ⟨d, hd, hmem⟩ := List.mem_flatMap.1 h
  have hnumber := eq_of_mem_utf8EncodeChar hmem hbyte
  rw [Char.toNat_inj.1 (hc.trans hnumber.symm)]
  apply hd

/-- Bytes are decoded to a text if they are its bytes, and to no other. -/
theorem decode?_eq_some_iff {bytes : Bytes} {text : String} :
  decode? bytes = some text ↔ bytes = encode text
  := by
  constructor
  · intro h
    rw [decode?, String.fromUTF8?] at h
    split at h
    · cases h
      rfl
    · cases h
  · rintro rfl
    exact decode?_encode text

/-- A character below 128 is one byte. -/
theorem utf8EncodeChar_of_lt {byte : UInt8} {c : Char} (hbyte : byte.toNat < 128)
    (hc : c.toNat = byte.toNat) :
  String.utf8EncodeChar c = [byte]
  := by
  have hval : c.val.toNat = byte.toNat := hc
  rw [String.utf8EncodeChar, hval]
  rw [if_pos (by omega), UInt8.ofNat_toNat]

/-- A byte below 128 at the end of some bytes is a character of its own there. -/
theorem decode?_append_singleton {bytes : Bytes} {byte : UInt8} {c : Char}
    (hbyte : byte.toNat < 128) (hc : c.toNat = byte.toNat) :
  decode? (bytes ++ [byte]) = (decode? bytes).map fun text => String.ofList (text.toList ++ [c])
  := by
  have hencode (cs : List Char) :
      encode (String.ofList (cs ++ [c])) = encode (String.ofList cs) ++ [byte] := by
    rw [encode_append, encode_ofList [c], List.flatMap_singleton, utf8EncodeChar_of_lt hbyte hc]
  cases h : decode? bytes with
  | some text =>
    rw [decode?_eq_some_iff] at h
    rw [Option.map_some, decode?_eq_some_iff, hencode, String.ofList_toList, h]
  | none =>
    rw [Option.map_none, Option.eq_none_iff_forall_ne_some]
    intro text htext
    rw [decode?_eq_some_iff, ← String.ofList_toList (s := text)] at htext
    obtain hnil | ⟨cs, d, hcs⟩ := List.eq_nil_or_concat text.toList
    · rw [hnil, encode_ofList] at htext
      simp at htext
    · rw [hcs, List.concat_eq_append, encode_append, encode_ofList [d], List.flatMap_singleton] at htext
      -- The last byte of the last character is below 128, so it is that character.
      have hmem : byte ∈ String.utf8EncodeChar d := by
        have hlast := congrArg List.getLast? htext
        have hne := String.utf8EncodeChar_ne_nil (c := d)
        rw [List.getLast?_concat, List.getLast?_append, List.getLast?_eq_some_getLast hne] at hlast
        rw [Option.some.inj hlast]
        exact List.getLast_mem hne
      have hd : d.toNat = byte.toNat := eq_of_mem_utf8EncodeChar hmem hbyte
      rw [utf8EncodeChar_of_lt hbyte hd] at htext
      rw [List.append_cancel_right htext, decode?_encode] at h
      cases h

end LogFormat
