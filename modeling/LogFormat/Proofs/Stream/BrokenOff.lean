import LogFormat.Proofs.Stream.Framing
import LogFormat.Proofs.Stream.JsonLines

/-!
# Outputs without enough room, and inputs that break off

What a run writes does not depend on the room that there is for it: an output without enough
room is given the same bytes as any other, takes those that it has room for, and fails at the
first byte that is left (`steps_eq_offer`).  An input that breaks off is run as far as its last
line feed (`run_of_failure`).  So either failure loses no more than an end of the output
(`run_loses_end`).
-/

namespace LogFormat

/-! ### Bytes for which there may be no room -/

namespace Output

variable {α β : Type}

/-- What has been written, as a list. -/
def bytes (o : Output) : Bytes :=
  o.written.data.toList

/-- The error at a byte for which there is no room: a line feed is written by itself, after a
record. -/
def failureAt (o : Output) (bytes : ByteArray) (i : Nat) : RunError :=
  if bytes.data.toList[i]? = some lineFeed then .io o.writeFailure else .json o.writeFailure

/-- The output after as many bytes as there was room for. -/
def cut (o : Output) (bytes : ByteArray) (room : Nat) : Output :=
  { o with written := o.written ++ bytes.extract 0 room, room := some 0 }

theorem bytes_put (o : Output) (bytes : ByteArray) :
  (o.put bytes).bytes = o.bytes ++ bytes.data.toList
  := by
  simp [Output.bytes, put]

theorem bytes_cut (o : Output) (bytes : ByteArray) (room : Nat) :
  (o.cut bytes room).bytes = o.bytes ++ bytes.data.toList.take room
  := by
  simp [Output.bytes, cut]

/-- What becomes of bytes that are offered to an output, when they are followed by a result if
all of them are taken.  Without enough room the output takes as many as there is room for, and
the result is the error at the next one. -/
def offer (o : Output) (bytes : ByteArray) (result : Except RunError α) :
    Except RunError α × Output :=
  match o.room with
  | none => (result, o.put bytes)
  | some room =>
    if bytes.size ≤ room then (result, o.put bytes)
    else (.error (o.failureAt bytes room), o.cut bytes room)

/-- The next computation, if there has been no error. -/
def andThen (x : Except RunError α × Output)
    (next : α → Output → Except RunError β × Output) : Except RunError β × Output :=
  match x with
  | (.ok a, o) => next a o
  | (.error e, o) => (.error e, o)

theorem offer_of_hasRoom {o : Output} {bytes : ByteArray} (h : o.HasRoom bytes.size)
    (result : Except RunError α) :
  o.offer bytes result = (result, o.put bytes)
  := by
  rw [offer]
  split
  · rfl
  · next room hroom => rw [if_pos (h room hroom)]

theorem offer_of_lt {o : Output} {bytes : ByteArray} {room : Nat} (hroom : o.room = some room)
    (h : room < bytes.size) (result : Except RunError α) :
  o.offer bytes result = (.error (o.failureAt bytes room), o.cut bytes room)
  := by
  simp only [offer, hroom]
  rw [if_neg (Nat.not_le_of_lt h)]

@[simp]
theorem offer_empty (o : Output) (result : Except RunError α) :
  o.offer .empty result = (result, o)
  := by
  have hroom : o.HasRoom ByteArray.empty.size := fun room _ => Nat.zero_le room
  rw [offer_of_hasRoom hroom, put_empty]

/-- Bytes for which there is no room are written as far as there is. -/
theorem write_of_lt {o : Output} {bytes : ByteArray} {room : Nat} (hroom : o.room = some room)
    (h : room < bytes.size) :
  o.write bytes = (.error o.writeFailure, o.cut bytes room)
  := by
  simp only [write, hroom]
  rw [if_neg (Nat.not_le_of_lt h)]
  rfl

/-- There is enough room, or it ends before the bytes do. -/
theorem hasRoom_or_lt (o : Output) (size : Nat) :
  o.HasRoom size ∨ ∃ room, o.room = some room ∧ room < size
  := by
  cases hroom : o.room with
  | none => exact .inl (hasRoom_of_room_eq_none hroom size)
  | some room =>
    by_cases h : size ≤ room
    · left
      intro room' hroom'
      rw [hroom] at hroom'
      cases hroom'
      apply h
    · exact .inr ⟨room, rfl, Nat.lt_of_not_le h⟩

/-- Room for bytes, and after them for other bytes, is room for both. -/
theorem hasRoom_append_of {o : Output} {first second : ByteArray} (hfirst : o.HasRoom first.size)
    (hsecond : (o.put first).HasRoom second.size) :
  o.HasRoom (first ++ second).size
  := by
  intro room hroom
  have hle := hfirst room hroom
  have hrest := hsecond (room - first.size) (by simp [put, hroom])
  rw [ByteArray.size_append]
  omega

/-- Room that ends in the first bytes takes nothing of those after them. -/
theorem cut_append_left (o : Output) {first : ByteArray} (second : ByteArray) {room : Nat}
    (h : room < first.size) :
  o.cut (first ++ second) room = o.cut first room
    ∧ o.failureAt (first ++ second) room = o.failureAt first room
  := by
  have hlength : room < first.data.toList.length := h
  have hextract : (first ++ second).extract 0 room = first.extract 0 room := by
    rw [ByteArray.extract_append, Nat.sub_eq_zero_of_le (Nat.le_of_lt h), Nat.zero_sub,
      ByteArray.extract_same, ByteArray.append_empty]
  rw [cut, cut, hextract, failureAt, failureAt, ByteArray.data_append, Array.toList_append,
    List.getElem?_append_left hlength]
  exact ⟨rfl, rfl⟩

/-- Room that ends after the first bytes takes them, and the beginning of those after them. -/
theorem cut_append_right (o : Output) {first : ByteArray} (second : ByteArray) {room : Nat}
    (h : first.size ≤ room) :
  o.cut (first ++ second) room = (o.put first).cut second (room - first.size)
    ∧ o.failureAt (first ++ second) room = (o.put first).failureAt second (room - first.size)
  := by
  have hlength : first.data.toList.length ≤ room := h
  have hextract : (first ++ second).extract 0 room
      = first ++ second.extract 0 (room - first.size) := by
    have hall : first.extract 0 (max room first.size) = first := ByteArray.extract_zero_max_size
    rw [Nat.max_eq_left h] at hall
    rw [ByteArray.extract_append, Nat.zero_sub, hall]
  rw [cut, cut, hextract, failureAt, failureAt, ByteArray.data_append, Array.toList_append,
    List.getElem?_append_right hlength, put, ByteArray.append_assoc]
  exact ⟨rfl, rfl⟩

/-- After an error nothing more is offered. -/
theorem offer_andThen_error (o : Output) (bytes : ByteArray) (e : RunError)
    (next : α → Output → Except RunError β × Output) :
  andThen (o.offer bytes (.error e)) next = o.offer bytes (.error e)
  := by
  rcases o.hasRoom_or_lt bytes.size with h | ⟨room, hroom, h⟩
  · rw [offer_of_hasRoom h, offer_of_hasRoom h]
    rfl
  · rw [offer_of_lt hroom h, offer_of_lt hroom h]
    rfl

/-- Bytes that are offered one after the other are offered as a whole. -/
theorem offer_andThen_offer {first second : ByteArray} {a : α} {result : Except RunError β}
    {next : α → Output → Except RunError β × Output}
    (hnext : ∀ o, next a o = o.offer second result) (o : Output) :
  andThen (o.offer first (.ok a)) next = o.offer (first ++ second) result
  := by
  rcases o.hasRoom_or_lt first.size with hfirst | ⟨room, hroom, hfirst⟩
  · rw [offer_of_hasRoom hfirst, andThen, hnext]
    rcases (o.put first).hasRoom_or_lt second.size with hsecond | ⟨rest, hrest, hsecond⟩
    · rw [offer_of_hasRoom (hasRoom_append_of hfirst hsecond), ← put_put]
      apply offer_of_hasRoom hsecond
    · obtain ⟨room, hroom, rfl⟩ := Option.map_eq_some_iff.1 hrest
      have hle := hfirst room hroom
      have hboth : room < (first ++ second).size := by
        rw [ByteArray.size_append]
        omega
      obtain ⟨hcut, hfailure⟩ := o.cut_append_right second hle
      rw [offer_of_lt hroom hboth, hcut, hfailure]
      apply offer_of_lt hrest hsecond
  · have hboth : room < (first ++ second).size := by
      rw [ByteArray.size_append]
      omega
    obtain ⟨hcut, hfailure⟩ := o.cut_append_left second hfirst
    rw [offer_of_lt hroom hfirst, offer_of_lt hroom hboth, hcut, hfailure]
    rfl

end Output

/-! ### What steps write -/

theorem recordsBytes_append (first second : List Record) :
  recordsBytes (first ++ second) = recordsBytes first ++ recordsBytes second
  := by
  induction first with
  | nil => exact ByteArray.empty_append.symm
  | cons r first ih =>
    rw [List.cons_append, recordsBytes, List.foldr_cons, ← recordsBytes, ih,
      ← ByteArray.append_assoc]
    rfl

namespace Progress

/-- A record is offered to the output as a whole. -/
theorem emit_eq_offer {r : Record} (h : lineFeed ∉ r.textBytes) (o : Output) :
  emit r o = o.offer r.bytes (.ok ())
  := by
  rcases o.hasRoom_or_lt r.bytes.size with hroom | ⟨room, hroom, hlt⟩
  · rw [emit_of_hasRoom hroom, Output.offer_of_hasRoom hroom]
  · rw [Output.offer_of_lt hroom hlt, Record.bytes]
    by_cases hjson : room < (String.ofList r.json).toUTF8.size
    · have hnot : (String.ofList r.json).toUTF8.data.toList[room]? ≠ some lineFeed := fun hget =>
        h (List.mem_of_getElem? hget)
      obtain ⟨hcut, hfailure⟩ := o.cut_append_left ⟨#[lineFeed]⟩ hjson
      rw [hcut, hfailure, Output.failureAt, if_neg hnot]
      simp only [emit, Output.write_of_lt hroom hjson]
    · have hle := Nat.le_of_not_lt hjson
      have hsize : room < (String.ofList r.json).toUTF8.size + 1 := by
        rw [Record.bytes, ByteArray.size_append] at hlt
        apply hlt
      obtain ⟨hcut, hfailure⟩ := o.cut_append_right ⟨#[lineFeed]⟩ hle
      have hput : o.HasRoom (String.ofList r.json).toUTF8.size := by
        intro room' hroom'
        rw [hroom] at hroom'
        cases hroom'
        apply hle
      have hzero : room - (String.ofList r.json).toUTF8.size = 0 := by omega
      have hrest : (o.put (String.ofList r.json).toUTF8).room = some 0 := by
        simp only [Output.put, hroom, Option.map_some, hzero]
      have hone : 0 < (⟨#[lineFeed]⟩ : ByteArray).size := Nat.zero_lt_one
      have hwrite := Output.write_of_lt hrest hone
      rw [hcut, hfailure, hzero]
      simp only [emit, Output.write_of_hasRoom hput, hwrite]
      rfl

/-- A step offers at most one record to the output, and nothing that it does depends on the
output. -/
theorem step_eq_offer (x : Extractor) (stop : Bool) (p : Progress) (line : Bytes) :
  ∃ (records : List Record) (result : Except RunError Progress),
    (∀ r ∈ records, lineFeed ∉ r.textBytes)
      ∧ ∀ o, step x stop p o line = o.offer (recordsBytes records) result
  := by
  by_cases hblank : isBlankLine line
  · refine ⟨[], .ok { p with line := p.line + 1 }, by simp, fun o => ?_⟩
    rw [step, if_pos hblank]
    exact (o.offer_empty _).symm
  · rcases hfeed : x.feed line p.sink with ⟨e | _, sink⟩
    · refine ⟨[], if stop then .error (.invalidRecord (p.line + 1) e)
        else .ok ⟨sink, p.counters.failure e, p.line + 1⟩, by simp, fun o => ?_⟩
      simp only [step, if_neg hblank, hfeed, recordsBytes, List.foldr_nil, Output.offer_empty]
      cases stop <;> rfl
    · have hlineFeed : lineFeed ∉ sink.takeRecord.1.textBytes := fun hmem =>
        Record.lineFeed_not_mem_json _ _ (mem_of_mem_encode (by decide) rfl hmem)
      have hbytes : recordsBytes [sink.takeRecord.1] = sink.takeRecord.1.bytes :=
        ByteArray.append_empty
      refine ⟨[sink.takeRecord.1], .ok ⟨sink.takeRecord.2, p.counters.success 0, p.line + 1⟩,
        by simpa using hlineFeed, fun o => ?_⟩
      simp only [step, if_neg hblank, hfeed, emit_eq_offer hlineFeed, hbytes]
      rcases o.hasRoom_or_lt sink.takeRecord.1.bytes.size with hroom | ⟨room, hroom, hlt⟩
      · simp only [Output.offer_of_hasRoom hroom]
      · simp only [Output.offer_of_lt hroom hlt]

/-- Steps over one more line. -/
theorem steps_cons (x : Extractor) (stop : Bool) (p : Progress) (o : Output) (line : Bytes)
    (lines : List Bytes) :
  steps x stop p o (line :: lines)
    = Output.andThen (step x stop p o line) fun p o => steps x stop p o lines
  := by
  rw [steps]
  rcases step x stop p o line with ⟨_ | _, o⟩ <;> rfl

/-- Steps offer records to the output one after the other, and which ones and with which result
does not depend on the output. -/
theorem steps_eq_offer (x : Extractor) (stop : Bool) (p : Progress) (lines : List Bytes) :
  ∃ (records : List Record) (result : Except RunError Progress),
    (∀ r ∈ records, lineFeed ∉ r.textBytes)
      ∧ ∀ o, steps x stop p o lines = o.offer (recordsBytes records) result
  := by
  induction lines generalizing p with
  | nil => exact ⟨[], .ok p, by simp, fun o => (o.offer_empty _).symm⟩
  | cons line lines ih =>
    obtain ⟨first, result, hfirst, hstep⟩ := step_eq_offer x stop p line
    cases result with
    | error e =>
      refine ⟨first, .error e, hfirst, fun o => ?_⟩
      rw [steps_cons, hstep, Output.offer_andThen_error]
    | ok p' =>
      obtain ⟨second, result, hsecond, hsteps⟩ := ih p'
      refine ⟨first ++ second, result, ?_, fun o => ?_⟩
      · intro r hr
        rcases List.mem_append.1 hr with hr | hr
        · apply hfirst r hr
        · apply hsecond r hr
      · rw [steps_cons, hstep, Output.offer_andThen_offer hsteps, recordsBytes_append]

end Progress

/-! ### Runs -/

/-- The result of a run whose last line has been taken, from the error that comes instead of the
end of the input and the error that comes when the output is flushed. -/
def Progress.finish (p : Progress) (failure flushFailure : Option String) :
    Except RunError Counters :=
  match failure, flushFailure with
  | some reason, _ => .error (.io reason)
  | none, some reason => .error (.io reason)
  | none, none => .ok p.counters

/-- A run takes all lines, and then it ends. -/
theorem run_eq (f : Format) (maxLineSize : Nat) (stop : Bool) (input : Input) (o : Output) :
  run f maxLineSize stop input o
    = Output.andThen
        ((Progress.ready f {} 0).steps (f.extractor maxLineSize) stop o input.lines)
        fun p o => (p.finish input.failure o.flushFailure, o)
  := by
  simp only [run, Progress.start_eq]
  rcases Progress.steps _ _ _ _ _ with ⟨_ | p, o⟩
  · rfl
  · simp only [Output.andThen, Progress.finish]
    cases input.failure <;> cases o.flushFailure <;> rfl

/-- A run offers records to the output, and which ones and with which result does not depend on
the room that there is. -/
theorem run_eq_offer (f : Format) (maxLineSize : Nat) (stop : Bool) (input : Input) :
  ∃ (records : List Record) (result : Option String → Except RunError Counters),
    (∀ r ∈ records, lineFeed ∉ r.textBytes)
      ∧ ∀ o, run f maxLineSize stop input o
          = o.offer (recordsBytes records) (result o.flushFailure)
  := by
  obtain ⟨records, result, hrecords, hsteps⟩ :=
    Progress.steps_eq_offer (f.extractor maxLineSize) stop (.ready f {} 0) input.lines
  refine ⟨records, fun flush => result.bind (·.finish input.failure flush), hrecords,
    fun o => ?_⟩
  rw [run_eq, hsteps]
  cases result with
  | error e => apply Output.offer_andThen_error
  | ok p =>
    rcases o.hasRoom_or_lt (recordsBytes records).size with hroom | ⟨room, hroom, hlt⟩
    · rw [Output.offer_of_hasRoom hroom, Output.offer_of_hasRoom hroom]
      rfl
    · rw [Output.offer_of_lt hroom hlt, Output.offer_of_lt hroom hlt]
      rfl

/-- An input that breaks off is run as far as its last line feed, and then the run ends with the
error of the input if it has not ended before. -/
theorem run_of_failure (f : Format) (maxLineSize : Nat) (stop : Bool) {lines : List Bytes}
    {tail : Bytes} (h : ∀ line ∈ lines, lineFeed ∉ line) (htail : lineFeed ∉ tail)
    (reason : String) (o : Output) :
  (run f maxLineSize stop ⟨framed lines ++ tail, some reason⟩ o).2
      = (run f maxLineSize stop ⟨framed lines, none⟩ o).2
    ∧ (run f maxLineSize stop ⟨framed lines ++ tail, some reason⟩ o).1
      = (run f maxLineSize stop ⟨framed lines, none⟩ { o with flushFailure := none }).1.bind
          fun _ => .error (.io reason)
  := by
  have hfailure := lines_framed_append h htail (some reason)
  have hnone := lines_framed_append h List.not_mem_nil none
  rw [List.append_nil] at hnone
  obtain ⟨records, result, -, hsteps⟩ :=
    Progress.steps_eq_offer (f.extractor maxLineSize) stop (.ready f {} 0) lines
  have hflush : ∀ size, o.HasRoom size → { o with flushFailure := none }.HasRoom size :=
    fun _ hroom => hroom
  simp only [run_eq, hfailure, hnone, Option.isSome_some, Bool.true_or, if_true, Option.isSome_none,
    List.isEmpty_nil, Bool.or_true, hsteps]
  rcases o.hasRoom_or_lt (recordsBytes records).size with hroom | ⟨room, hroom, hlt⟩
  · rw [Output.offer_of_hasRoom hroom, Output.offer_of_hasRoom (hflush _ hroom)]
    cases result <;> exact ⟨rfl, rfl⟩
  · have hroom' : { o with flushFailure := none }.room = some room := hroom
    rw [Output.offer_of_lt hroom hlt, Output.offer_of_lt hroom' hlt]
    exact ⟨rfl, rfl⟩

/-- Failures lose no more than an end of the output.  An output with room for so many bytes takes
as many of those that it would take without a limit.  If these are all, the run ends with the
same result; otherwise it ends with an error at the first byte that is left, which is one of the
output if the byte is the line feed after a record, and one of the record if it is a byte of the
record itself.  An input that breaks off gives the output of its finished lines, and unless the
run has ended before, it ends with the error of the input. -/
theorem run_loses_end
    (f : Format) (maxLineSize : Nat) (stop : Bool) (input : Input) (o : Output) :
  ∃ (records : List Record) (full : Bytes),
    full = framed (records.map Record.textBytes) ∧ (∀ r ∈ records, lineFeed ∉ r.textBytes)
    ∧ (run f maxLineSize stop input { o with room := none }).2.bytes = o.bytes ++ full
    ∧ (∀ room,
      (run f maxLineSize stop input { o with room := some room }).2.bytes
          = o.bytes ++ full.take room
        ∧ (run f maxLineSize stop input { o with room := some room }).1
          = if full.length ≤ room then (run f maxLineSize stop input { o with room := none }).1
            else if full[room]? = some lineFeed then .error (.io o.writeFailure)
            else .error (.json o.writeFailure))
    ∧ ∃ lines tail, input.bytes = framed lines ++ tail ∧ (∀ line ∈ lines, lineFeed ∉ line)
      ∧ lineFeed ∉ tail
      ∧ ∀ reason, (run f maxLineSize stop ⟨input.bytes, some reason⟩ o).2
            = (run f maxLineSize stop ⟨framed lines, none⟩ o).2
          ∧ (run f maxLineSize stop ⟨input.bytes, some reason⟩ o).1
            = (run f maxLineSize stop ⟨framed lines, none⟩ { o with flushFailure := none }).1.bind
                fun _ => .error (.io reason)
  := by
  obtain ⟨records, result, hrecords, hrun⟩ := run_eq_offer f maxLineSize stop input
  obtain ⟨lines, tail, hbytes, hlines, htail⟩ := exists_framed input.bytes
  have hfull : framed (records.map Record.textBytes) = (recordsBytes records).data.toList :=
    (toList_recordsBytes records).symm
  have hunlimited : { o with room := none }.HasRoom (recordsBytes records).size :=
    Output.hasRoom_of_room_eq_none rfl _
  refine ⟨records, _, hfull.symm, hrecords, ?_, fun room => ?_, lines, tail, hbytes, hlines,
    htail, fun reason => ?_⟩
  · rw [hrun, Output.offer_of_hasRoom hunlimited, Output.bytes_put]
    rfl
  · have hlength : (recordsBytes records).data.toList.length = (recordsBytes records).size := rfl
    rw [hlength, hrun, hrun, Output.offer_of_hasRoom hunlimited]
    by_cases h : (recordsBytes records).size ≤ room
    · have hroom : { o with room := some room }.HasRoom (recordsBytes records).size := by
        rintro _ ⟨⟩
        apply h
      rw [Output.offer_of_hasRoom hroom, Output.bytes_put, if_pos h,
        List.take_of_length_le (by rw [hlength]; apply h)]
      exact ⟨rfl, rfl⟩
    · have hroom : { o with room := some room }.room = some room := rfl
      rw [Output.offer_of_lt hroom (Nat.lt_of_not_le h), Output.bytes_cut, if_neg h]
      refine ⟨rfl, ?_⟩
      simp only [Output.failureAt]
      split <;> rfl
  · rw [hbytes]
    apply run_of_failure f maxLineSize stop hlines htail

end LogFormat
