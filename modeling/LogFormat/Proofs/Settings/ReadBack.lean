import LogFormat.Proofs.Record.Conversion
import LogFormat.Proofs.Settings.UniqueDivision
import LogFormat.Proofs.Stream.LineByLine

/-!
# What a server writes is read back

The texts that the line of an access divides into are converted to the values of its columns
(`converts_words`).  So the line has the record of these columns (`freshRecord_line`), and a
run over the line writes this record.
-/

namespace LogFormat

open Resolved

namespace Access

/-! ### The record of an access -/

/-- Digits that fit a column are converted to the number that they denote, and a hyphen to
no value. -/
theorem convert_number (name subPattern : String) {w : List Char}
    (h : w = ['-'] ∨ w ≠ [] ∧ AllDigits w ∧ (digitsValue w : Int) ≤ maxInteger) :
  (⟨name, subPattern, .integer⟩ : Field).convert (String.ofList w) = .ok (number w)
  := by
  rcases h with rfl | ⟨hne, hdigits, hmax⟩
  · rfl
  · have hempty : String.ofList w ≠ "" := by
      rw [← String.ofList_nil]
      intro h
      apply hne (String.ofList_injective h)
    have hhyphen : w ≠ ['-'] := by
      rintro rfl
      apply absurd (hdigits '-' (by simp)) (by decide)
    have hhyphen' : String.ofList w ≠ "-" := fun h => hhyphen (String.ofList_injective h)
    simp only [Field.convert, String.toList_ofList, readInteger?_of_digits hne hdigits hmax]
    rw [if_neg (by simp [hempty, hhyphen']), number, if_neg hhyphen]

/-- The status fits a column. -/
theorem status_fits (a : Access) :
  a.status = ['-']
    ∨ a.status ≠ [] ∧ AllDigits a.status ∧ (digitsValue a.status : Int) ≤ maxInteger
  := by
  rcases a.status_digits with ⟨hlength, hdigits⟩ | h
  · right
    have hlt := digitsValue_lt (List.all_eq_true.2 hdigits)
    rw [hlength] at hlt
    refine ⟨?_, hdigits, by rw [maxInteger]; omega⟩
    rintro hnil
    rw [hnil] at hlength
    cases hlength
  · apply Or.inl h

/-- The time is converted to the instant it was written from. -/
theorem convert_time (a : Access) (zone : Offset) :
  (Nickname.timeField zone).convert (String.ofList a.timeText) = .ok (.timestamp a.time)
  := by
  have hstrip : Layout.commonLog.strip (String.ofList a.timeText)
      = String.ofList (a.time.commonLogText a.zone) := by
    simp [Layout.strip, timeText]
  have hread := readTime_commonLogText a.zone_whole a.time_whole a.year_bounds zone
  simp only [Field.convert, Nickname.timeField, Field.timestamp, TimeReader.standard, hstrip,
    hread]
  rfl

/-- The texts of an access are converted to the values of its columns. -/
theorem converts_words (a : Access) (n : Nickname) (zone : Offset) :
  Converts (fields (n.resolved zone)) (a.words n) ((a.columns n).map (·.2))
  := by
  have hcommon : ∀ start {more others values}, Converts more others values →
      Converts (fields (Nickname.commonResolved start zone) ++ more) (a.commonWords ++ others)
        (a.commonColumns.map (·.2) ++ values) := by
    intro start more others values hmore
    exact .cons rfl (.cons rfl (.cons rfl (.cons (a.convert_time zone) (.cons rfl
      (.cons (convert_number _ _ a.status_fits)
        (.cons (convert_number _ _ a.size_digits) hmore))))))
  cases n with
  | common => exact hcommon 0 .nil
  | vhostCommon => exact .cons rfl (hcommon 3 .nil)
  | combined => exact hcommon 0 (.cons rfl (.cons rfl .nil))

/-- The names of the columns. -/
theorem columnNames_eq (a : Access) (n : Nickname) (zone : Offset) :
  (Format.ofResolved n.text (n.resolved zone)).columnNames = (a.columns n).map (·.1)
  := by
  cases n <;> cbv

/-! ### Whole runs -/

/-- The common part of a line has no line feed. -/
theorem lineFeed_not_mem_commonLine (a : Access) :
  '\n' ∉ a.commonLine
  := by
  have ha := a.commonWords_accepted
  have htime : '\n' ∉ a.time.commonLogText a.zone :=
    fun hmem => absurd (Instant.mem_commonLogText hmem) (by decide)
  have hlogName : '\n' ∉ a.logName := not_mem_of_nonblank ha.logName (by decide)
  have hstatus : '\n' ∉ a.status := not_mem_status ha.status (by decide) (by decide)
  have hsize : '\n' ∉ a.size := not_mem_size ha.size (by decide) (by decide)
  simp [commonLine, commonText, timeText, a.host_unquoted.2, hlogName, a.user_unquoted.2,
    htime, a.requestLine_unquoted.2, hstatus, hsize]

/-- The line of an access has no line feed. -/
theorem lineFeed_not_mem_line (a : Access) (n : Nickname) :
  '\n' ∉ a.line n
  := by
  have hcommon := a.lineFeed_not_mem_commonLine
  have hserver : '\n' ∉ a.serverName := not_mem_of_nonblank a.serverName_nonblank (by decide)
  cases n with
  | common => exact hcommon
  | vhostCommon => simp [line, hserver, hcommon]
  | combined => simp [line, hcommon, a.referer_unquoted.2, a.userAgent_unquoted.2]

/-- The line of an access does not end with a carriage return. -/
theorem getLast?_line_ne (a : Access) (n : Nickname) :
  (a.line n).getLast? ≠ some '\r'
  := by
  have hsize := a.commonWords_accepted.size
  have hne : a.size ≠ [] := by
    rcases hsize with h | ⟨hne, -⟩
    · simp [h]
    · apply hne
  have hlast : ∀ before, (before ++ a.size).getLast? ≠ some '\r' := by
    intro before h
    rw [List.getLast?_append_of_ne_nil before hne] at h
    apply not_mem_size hsize (by decide) (by decide) (List.mem_of_getLast? h)
  cases n with
  | common =>
    have hline : a.line .common = (a.host ++ ' ' :: (a.logName ++ ' ' :: (a.user ++ ' ' ::
        (a.timeText ++ ' ' :: '"' :: (a.requestLine ++ '"' :: ' ' :: (a.status ++ [' ']))))))
        ++ a.size := by simp [line, commonLine, commonText]
    rw [hline]
    apply hlast _
  | vhostCommon =>
    have hline : a.line .vhostCommon = (a.serverName ++ ' ' :: (a.host ++ ' ' :: (a.logName
        ++ ' ' :: (a.user ++ ' ' :: (a.timeText ++ ' ' :: '"' :: (a.requestLine ++ '"' :: ' ' ::
        (a.status ++ [' '])))))))
        ++ a.size := by simp [line, commonLine, commonText]
    rw [hline]
    apply hlast _
  | combined =>
    have hline : a.line .combined = (a.commonLine ++ ' ' :: '"' :: (a.referer ++ '"' :: ' ' ::
        '"' :: a.userAgent)) ++ ['"'] := by simp [line]
    rw [hline, List.getLast?_concat]
    decide

/-- The line of an access, by itself, has the record of its columns. -/
theorem freshRecord_line (a : Access) (n : Nickname) (zone : Offset) {maxLineSize : Nat}
    (hsize : utf8Length (a.line n) ≤ maxLineSize) :
  (Format.ofResolved n.text (n.resolved zone)).freshRecord maxLineSize
      (encode (String.ofList (a.line n))) = .ok ⟨a.columns n⟩
  := by
  obtain ⟨hsome, hcaptures⟩ :=
    Format.captures?_of_resolves (n.resolves zone) (String.ofList (a.line n))
  rw [String.toList_ofList] at hsome hcaptures
  obtain ⟨captures, hfound⟩ := Option.isSome_iff_exists.1 (hsome.2 ⟨_, a.divide_words n zone⟩)
  obtain ⟨found, rfl, hdivide, hchosen⟩ := hcaptures captures hfound
  have hconverts := a.converts_words n zone
  rw [← a.words_eq hdivide hchosen] at hconverts
  rw [Format.freshRecord_encode hsize (a.getLast?_line_ne n) hfound hconverts,
    a.columnNames_eq, ← List.zip_of_prod rfl rfl]

/-- The line of an access has spaces, and so it is not blank. -/
theorem not_isBlankLine (a : Access) (n : Nickname) :
  ¬isBlankLine (encode (String.ofList (a.line n)))
  := by
  have hlength : 2 ≤ (a.line n).length := by
    cases n <;> simp [line, commonLine, commonText] <;> omega
  have hbytes := length_encode (a.line n)
  have hle := length_le_utf8Length (a.line n)
  intro hblank
  simp only [isBlankLine, Bool.or_eq_true, beq_iff_eq] at hblank
  rcases hblank with h | h <;> rw [h] at hbytes <;> simp at hbytes <;> omega

/-- The bytes of the line of an access have no line feed. -/
theorem lineFeed_not_mem_encode (a : Access) (n : Nickname) :
  lineFeed ∉ encode (String.ofList (a.line n))
  := by
  intro hmem
  have hchar : '\n' ∈ a.line n := mem_of_mem_encode (by decide) rfl hmem
  apply a.lineFeed_not_mem_line n hchar

end Access

/-- What a server writes is read back: with the settings of a named format, a run over the
line of an access in that format writes one record, the columns of which are the texts and
numbers of the access and its time. -/
theorem run_line_of_access
    {s : Settings} (a : Access) {n : Nickname} (hname : s.format = n.name) {zone : Offset}
    (hzone : Offset.ofText s.defaultTimezone = .ok zone)
    (hsize : utf8Length (a.line n) ≤ s.maxLineSize) :
  ∃ f, s.compile = .ok f
    ∧ run f s.maxLineSize s.stopOnInvalid ⟨encode (String.ofList (a.line n ++ ['\n'])), none⟩ {}
      = (.ok { lines := 1, extracted := 1 }, { written := Record.bytes ⟨a.columns n⟩ })
  := by
  refine ⟨_, Nickname.compile_eq hname hzone, ?_⟩
  have hrun := run_single_line s.stopOnInvalid (o := {}) (a.lineFeed_not_mem_encode n)
    (a.not_isBlankLine n) (a.freshRecord_line n zone hsize) rfl
      (Output.hasRoom_of_room_eq_none rfl _)
  rw [encode_append]
  have hput : Output.put {} (Record.bytes ⟨a.columns n⟩)
      = { written := Record.bytes ⟨a.columns n⟩ } := by
    simp [Output.put]
  rw [hput] at hrun
  apply hrun

/-- A request for a picture, on 2000-10-10 at 20:55:36 UTC. -/
def pictureAccess : Access where
  serverName := "www.example.com".toList
  host := "127.0.0.1".toList
  logName := "-".toList
  user := "frank [x] y".toList
  time := ⟨971211336, 0, by decide⟩
  zone := ⟨-25200, by decide⟩
  requestLine := "GET /apache_pb.gif HTTP/1.0".toList
  status := "200".toList
  size := "2326".toList
  referer := []
  userAgent := "Mozilla/4.08 [en]".toList
  serverName_nonblank := by simp [isBlank]
  logName_nonblank := by simp [isBlank]
  host_nospace := by decide
  host_unquoted := by decide
  user_unquoted := by decide
  requestLine_unquoted := by decide
  referer_unquoted := by decide
  userAgent_unquoted := by decide
  status_digits := by decide
  size_digits := by decide
  time_whole := by decide
  zone_whole := by decide
  year_bounds := by decide

/-- The line of such a request in the combined format, with a user that has spaces and
brackets. -/
theorem run_line_of_picture :
  ∃ f, Settings.compile { format := "combined" } = .ok f
    ∧ run f defaultMaxLineSize false
        ⟨encode (String.ofList (("127.0.0.1 - frank [x] y [10/Oct/2000:13:55:36 -0700] "
          ++ "\"GET /apache_pb.gif HTTP/1.0\" 200 2326 \"\" \"Mozilla/4.08 [en]\"").toList
          ++ ['\n'])), none⟩ {}
      = (.ok { lines := 1, extracted := 1 },
          { written := Record.bytes ⟨pictureAccess.columns .combined⟩ })
  := by
  have hline : pictureAccess.line .combined
      = ("127.0.0.1 - frank [x] y [10/Oct/2000:13:55:36 -0700] "
        ++ "\"GET /apache_pb.gif HTTP/1.0\" 200 2326 \"\" \"Mozilla/4.08 [en]\"").toList := by
    decide +kernel
  rw [← hline]
  have hzone : Offset.ofText "UTC" = .ok .utc := by decide
  apply run_line_of_access (s := { format := "combined" }) pictureAccess (n := .combined) rfl
    hzone (by decide +kernel)

end LogFormat
