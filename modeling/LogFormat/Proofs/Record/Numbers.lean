import LogFormat.Proofs.Directive.Words
import LogFormat.Proofs.Record.Calls
import LogFormat.Proofs.Text.Decimal

/-!
# Numbers of a line

The word that is found for a directive of numbers is a hyphen or a run of digits.  A hyphen
becomes no value, and digits become the number that they denote if it is less than `2 ^ 63`.
Digits of a greater number are refused, and nothing else is (`feedText_numbers`).
-/

namespace LogFormat

/-! ### Directives of numbers -/

/-- The keys of the directives of numbers. -/
def numberKeys : List Char :=
  ['b', 'B', 'D', 'p', 'P', 's', 'T', 'I', 'O']

/-- The word is one or more digits. -/
def IsNumeral (word : List Char) : Prop :=
  word ≠ [] ∧ ∀ c ∈ word, c.isDigit

/-- The field of a directive has numbers exactly if the key of the directive is one of theirs. -/
theorem Directive.Makes.columnType_eq_integer_iff {reader : TimeReader} {d : Directive}
    {field : Field} (h : d.Makes reader field) :
  field.columnType = .integer ↔ d.key ∈ numberKeys
  := by
  obtain ⟨e, he, hkey, hfield⟩ := h
  have hall : ∀ e ∈ directiveTable, (∃ p ∈ SubPattern.bodies.map (·.1), e.maker = .integer p)
      ↔ e.key ∈ numberKeys := by
    decide
  rw [← hkey, ← hall e he]
  rw [TableEntry.field?] at hfield
  split at hfield
  · next hmaker =>
    cases hfield
    simp [Field.columnType, hmaker]
  · next p hmaker =>
    cases hfield
    have hmem : p ∈ SubPattern.bodies.map (·.1) :=
      mem_bodies_of_mem_directiveTable he (by rw [hmaker]; rfl)
    simpa [Field.columnType, hmaker] using hmem
  · next hmaker =>
    obtain ⟨layout, -, heq⟩ := bind_eq_ok.1 hfield
    cases heq
    simp [Field.columnType, Field.timestamp, hmaker]

/-- A field of numbers accepts a hyphen and digits, exactly three for a status. -/
theorem Directive.Makes.numeral_of_accepts {reader : TimeReader} {d : Directive} {field : Field}
    (h : d.Makes reader field) (hkey : d.key ∈ numberKeys) {word : List Char}
    (hword : field.Accepts word) :
  word = ['-'] ∨ IsNumeral word ∧ (d.key = 's' → word.length = 3)
  := by
  obtain ⟨e, he, heq, hfield⟩ := h
  have hall : ∀ e ∈ directiveTable, e.key ∈ numberKeys → e.maker
      = .integer (if e.key = 's' then SubPattern.status else SubPattern.integer) := by
    decide
  have hmaker := hall e he (heq ▸ hkey)
  rw [TableEntry.field?, hmaker] at hfield
  cases hfield
  by_cases hs : d.key = 's'
  · have hmem : (SubPattern.status, SubPattern.statusBody) ∈ SubPattern.bodies := by
      simp [SubPattern.bodies]
    rw [heq, if_pos hs] at hword
    rw [Field.accepts_iff_of_mem_bodies hmem, SubPattern.mem_language_statusBody] at hword
    obtain ⟨hlength, hdigits⟩ | hhyphen := hword
    · exact .inr ⟨⟨List.ne_nil_of_length_eq_add_one hlength, hdigits⟩, fun _ => hlength⟩
    · exact .inl hhyphen
  · have hmem : (SubPattern.integer, SubPattern.integerBody) ∈ SubPattern.bodies := by
      simp [SubPattern.bodies]
    rw [heq, if_neg hs] at hword
    rw [Field.accepts_iff_of_mem_bodies hmem, SubPattern.mem_language_integerBody] at hword
    exact hword.imp id fun hword => ⟨hword, fun h => absurd h hs⟩

/-! ### Conversion -/

/-- The field takes the word for what it is: a hyphen for no value, and digits for the number
that they denote, unless it does not fit into 64 bits; then the error gives the word. -/
structure Field.TakesExactly (field : Field) (word : List Char) : Prop where
  null_iff : field.convert (String.ofList word) = .ok .null ↔ word = ['-']
  integer_iff : ∀ n, field.convert (String.ofList word) = .ok (.integer n)
    ↔ IsNumeral word ∧ digitsValue word < 2 ^ 63 ∧ n = digitsValue word
  error_iff : ∀ cause, field.convert (String.ofList word) = .error cause
    ↔ IsNumeral word ∧ 2 ^ 63 ≤ digitsValue word
      ∧ cause = .malformedInteger (String.ofList word)

/-- A hyphen is not a numeral. -/
theorem not_isNumeral_hyphen :
  ¬IsNumeral ['-']
  := by
  rintro ⟨-, hdigits⟩
  cases hdigits '-' List.mem_cons_self

/-- Digits are not taken for a missing number. -/
theorem IsNumeral.not_missing {word : List Char} (h : IsNumeral word) :
  ¬(String.ofList word = "" ∨ String.ofList word = "-")
  := by
  rintro (hempty | hhyphen)
  · apply h.1
    simpa using congrArg String.toList hempty
  · have hword : word = ['-'] := by simpa using congrArg String.toList hhyphen
    apply not_isNumeral_hyphen (hword ▸ h)

/-- The kind of a field of numbers. -/
theorem Field.kind_of_columnType {field : Field} (h : field.columnType = .integer) :
  field.kind = .integer
  := by
  rw [columnType] at h
  split at h
  · cases h
  · next hkind => exact hkind
  · cases h

/-- Digits of a number that fits are converted to it. -/
theorem Field.convert_of_lt {field : Field} (hkind : field.kind = .integer) {word : List Char}
    (h : IsNumeral word) (hlt : digitsValue word < 2 ^ 63) :
  field.convert (String.ofList word) = .ok (.integer (digitsValue word))
  := by
  have hread : readInteger? word = some (digitsValue word : Int) := by
    apply readInteger?_of_digits h.1 h.2
    rw [maxInteger]
    omega
  rw [convert, hkind]
  simp only [if_neg h.not_missing, String.toList_ofList, hread]

/-- Digits of a number that does not fit are refused. -/
theorem Field.convert_of_le {field : Field} (hkind : field.kind = .integer) {word : List Char}
    (h : IsNumeral word) (hle : 2 ^ 63 ≤ digitsValue word) :
  field.convert (String.ofList word) = .error (.malformedInteger (String.ofList word))
  := by
  have hread : readInteger? word = none := by
    apply readInteger?_eq_none h.2
    rw [maxInteger]
    omega
  rw [convert, hkind]
  simp only [if_neg h.not_missing, String.toList_ofList, hread]

/-- Fields of numbers take hyphens and digits exactly. -/
theorem Field.takesExactly {field : Field} (hinteger : field.columnType = .integer)
    {word : List Char} (h : word = ['-'] ∨ IsNumeral word) :
  field.TakesExactly word
  := by
  have hkind := kind_of_columnType hinteger
  obtain rfl | h := h
  · have hvalue : field.convert (String.ofList ['-']) = .ok .null := by
      rw [convert, hkind]
      rfl
    constructor <;> simp [hvalue, not_isNumeral_hyphen]
  have hhyphen : word ≠ ['-'] := by
    rintro rfl
    apply not_isNumeral_hyphen h
  obtain hlt | hle := Nat.lt_or_ge (digitsValue word) (2 ^ 63)
  · have hvalue := convert_of_lt hkind h hlt
    refine ⟨by simp [hvalue, hhyphen], fun n => ?_, fun cause => ?_⟩
    · rw [hvalue]
      constructor
      · rintro ⟨⟩
        exact ⟨h, hlt, rfl⟩
      · rintro ⟨-, -, rfl⟩
        rfl
    · rw [hvalue]
      constructor
      · rintro ⟨⟩
      · rintro ⟨-, hle, -⟩
        omega
  · have hvalue := convert_of_le hkind h hle
    refine ⟨by simp [hvalue, hhyphen], fun n => ?_, fun cause => ?_⟩
    · rw [hvalue]
      constructor
      · rintro ⟨⟩
      · rintro ⟨-, hlt, -⟩
        omega
    · rw [hvalue]
      constructor
      · rintro ⟨⟩
        exact ⟨h, hle, rfl⟩
      · rintro ⟨-, -, rfl⟩
        rfl

/-! ### Places -/

/-- In that place of a format and of a line stand this directive, its field, and the word that
is found for it. -/
structure Stands (directives : List Directive) (fields : List Field) (words : List (List Char))
    (i : Nat) (d : Directive) (field : Field) (word : List Char) : Prop where
  directive : directives[i]? = some d
  field : fields[i]? = some field
  word : words[i]? = some word

/-- Related lists have related items in the same places. -/
theorem exists_getElem?_of_forall₂ {α β : Type} {R : α → β → Prop} {xs : List α} {ys : List β}
    (h : List.Forall₂ R xs ys) {i : Nat} {y : β} (hy : ys[i]? = some y) :
  ∃ x, xs[i]? = some x ∧ R x y
  := by
  obtain ⟨hlt, rfl⟩ := List.getElem?_eq_some_iff.1 hy
  have hlt' : i < xs.length := h.length_eq ▸ hlt
  exact ⟨xs[i], List.getElem?_eq_getElem hlt', h.get hlt' hlt⟩

/-- Every value comes from the field and the word in the same place. -/
theorem Converts.exists_of_getElem? {fields : List Field} {words : List (List Char)}
    {values : List Value} (h : Converts fields words values) {i : Nat} {v : Value}
    (hv : values[i]? = some v) :
  ∃ field word, fields[i]? = some field ∧ words[i]? = some word
    ∧ field.convert (String.ofList word) = .ok v
  := by
  induction h generalizing i with
  | nil => cases hv
  | cons hvalue _ ih =>
    cases i with
    | zero =>
      cases hv
      exact ⟨_, _, rfl, rfl, hvalue⟩
    | succ i => exact ih hv

/-- No field refuses its word if all words convert. -/
theorem Converts.not_refuses {fields : List Field} {words : List (List Char)}
    {values : List Value} (h : Converts fields words values) {i : Nat} {name : String}
    {cause : FieldError} :
  ¬Refuses fields words i name cause
  := by
  induction h generalizing i with
  | nil =>
    rintro ⟨field, word, hfield, -⟩
    cases hfield
  | cons hvalue _ ih =>
    cases i with
    | zero =>
      intro hrefuses
      cases hvalue.symm.trans (refuses_zero.1 hrefuses).2
    | succ i => exact fun hrefuses => ih (refuses_succ.1 hrefuses)

/-- A field of numbers that accepts a word takes it exactly. -/
theorem Directive.Makes.takesExactly {reader : TimeReader} {d : Directive} {field : Field}
    (h : d.Makes reader field) (hkey : d.key ∈ numberKeys) {word : List Char}
    (hword : field.Accepts word) :
  (word = ['-'] ∨ IsNumeral word ∧ (d.key = 's' → word.length = 3)) ∧ field.TakesExactly word
  := by
  have hnumeral := h.numeral_of_accepts hkey hword
  refine ⟨hnumeral, Field.takesExactly (h.columnType_eq_integer_iff.2 hkey) ?_⟩
  exact hnumeral.imp_right (·.1)

section

variable {reader : TimeReader} {directives : List Directive} {fields : List Field}
  {words : List (List Char)}

/-- Every directive has a field and a word. -/
theorem exists_stands_of_directive
    (hmakes : List.Forall₂ (Directive.Makes reader) directives fields)
    (haccepts : List.Forall₂ Field.Accepts fields words) {i : Nat} {d : Directive}
    (hd : directives[i]? = some d) :
  ∃ field word, Stands directives fields words i d field word ∧ d.Makes reader field
    ∧ field.Accepts word
  := by
  obtain ⟨field, hfield, hmake⟩ := exists_getElem?_of_forall₂ hmakes.flip hd
  obtain ⟨word, hword, haccept⟩ := exists_getElem?_of_forall₂ haccepts.flip hfield
  exact ⟨field, word, ⟨hd, hfield, hword⟩, hmake, haccept⟩

/-- Every field and its word have a directive. -/
theorem exists_stands_of_field
    (hmakes : List.Forall₂ (Directive.Makes reader) directives fields)
    (haccepts : List.Forall₂ Field.Accepts fields words) {i : Nat} {field : Field}
    {word : List Char} (hfield : fields[i]? = some field) (hword : words[i]? = some word) :
  ∃ d, Stands directives fields words i d field word ∧ d.Makes reader field
    ∧ field.Accepts word
  := by
  obtain ⟨d, hd, hmake⟩ := exists_getElem?_of_forall₂ hmakes hfield
  obtain ⟨_, hfield', haccept⟩ := exists_getElem?_of_forall₂ haccepts hword
  cases hfield.symm.trans hfield'
  exact ⟨d, ⟨hd, hfield, hword⟩, hmake, haccept⟩

/-- If all words convert that are no numbers, some word does not exactly if it is a number that
does not fit into 64 bits. -/
theorem exists_refuses_iff
    (hmakes : List.Forall₂ (Directive.Makes reader) directives fields)
    (haccepts : List.Forall₂ Field.Accepts fields words)
    (hothers : ∀ i d field word, Stands directives fields words i d field word →
      d.key ∉ numberKeys → ∃ v, field.convert (String.ofList word) = .ok v) :
  (∃ i name cause, Refuses fields words i name cause)
    ↔ ∃ i d field word, Stands directives fields words i d field word ∧ d.key ∈ numberKeys
        ∧ IsNumeral word ∧ 2 ^ 63 ≤ digitsValue word
  := by
  constructor
  · rintro ⟨i, name, cause, field, word, hfield, hword, -, hcause⟩
    obtain ⟨d, hstands, hmake, haccept⟩ := exists_stands_of_field hmakes haccepts hfield hword
    by_cases hkey : d.key ∈ numberKeys
    · obtain ⟨-, hexact⟩ := hmake.takesExactly hkey haccept
      obtain ⟨hnumeral, hle, -⟩ := (hexact.error_iff cause).1 hcause
      exact ⟨i, d, field, word, hstands, hkey, hnumeral, hle⟩
    · obtain ⟨v, hv⟩ := hothers i d field word hstands hkey
      cases hv.symm.trans hcause
  · rintro ⟨i, d, field, word, hstands, hkey, hnumeral, hle⟩
    obtain ⟨d', hstands', hmake, haccept⟩ :=
      exists_stands_of_field hmakes haccepts hstands.field hstands.word
    cases hstands.directive.symm.trans hstands'.directive
    obtain ⟨-, hexact⟩ := hmake.takesExactly hkey haccept
    exact ⟨i, field.name, _, field, word, hstands.field, hstands.word, rfl,
      (hexact.error_iff _).2 ⟨hnumeral, hle, rfl⟩⟩

/-- A number that a word converts to is the one that its digits denote. -/
theorem Converts.exists_numeral {values : List Value} (h : Converts fields words values)
    (hmakes : List.Forall₂ (Directive.Makes reader) directives fields)
    (haccepts : List.Forall₂ Field.Accepts fields words) {i : Nat} {n : Int}
    (hn : values[i]? = some (.integer n)) :
  ∃ d field word, Stands directives fields words i d field word ∧ d.key ∈ numberKeys
    ∧ IsNumeral word ∧ digitsValue word < 2 ^ 63 ∧ n = digitsValue word
  := by
  obtain ⟨field, word, hfield, hword, hvalue⟩ := h.exists_of_getElem? hn
  obtain ⟨d, hstands, hmake, haccept⟩ := exists_stands_of_field hmakes haccepts hfield hword
  have htype : field.columnType = .integer := by
    have hadmits := Field.admits_of_convert hvalue
    generalize field.columnType = type at hadmits
    cases hadmits
    rfl
  have hkey := hmake.columnType_eq_integer_iff.1 htype
  obtain ⟨-, hexact⟩ := hmake.takesExactly hkey haccept
  exact ⟨d, field, word, hstands, hkey, (hexact.integer_iff n).1 hvalue⟩

end

namespace Format

/-- A line either writes the values of its words, each to the column in the same place, or
leaves the sink as it is because of the first word that does not convert. -/
theorem feedText_outcome {σ : Type} [Sink σ] {x : Extractor} {line : String}
    {found : List Capture} (hline : x.format.line.captures? line = some (found.map some))
    (hlength : found.length = x.format.fields.length) (s : Recorded σ) :
  (∃ values, Converts x.format.fields (found.map (·.text)) values
      ∧ (x.feedText line s).1 = .ok ()
      ∧ (x.feedText line s).2.calls = s.calls ++ List.zipWith .write x.columns values)
    ∨ ∃ index name cause, Refuses x.format.fields (found.map (·.text)) index name cause
      ∧ x.feedText line s = (.error (.field index name cause), s)
  := by
  have houtcome := Extractor.convertAll_outcome 0 hlength
  have htext : x.textValues line = Extractor.convertAll 0 x.format.fields (found.map some) := by
    rw [Extractor.textValues, hline]
  cases hvalues : Extractor.convertAll 0 x.format.fields (found.map some) with
  | ok values =>
    rw [hvalues] at houtcome
    refine .inl ⟨values, houtcome, ?_⟩
    simp only [Extractor.feedText, htext, hvalues, Recorded.writeValues_eq,
      List.map_zip_eq_zipWith]
    exact ⟨trivial, rfl⟩
  | error e =>
    rw [hvalues] at houtcome
    obtain ⟨index, name, cause, rfl, hfirst⟩ := houtcome
    rw [Nat.zero_add] at hvalues
    refine .inr ⟨index, name, cause, hfirst.1, ?_⟩
    simp only [Extractor.feedText, htext, hvalues]

/-- Numbers are exact.  The word that is found for a directive of numbers is a hyphen or one or
more digits, three of them for a status, and its field takes it exactly.  If all other words
convert, a line fails exactly if some number does not fit into 64 bits.  The only numbers that are
written are those that digits of the line denote, each to the column of its directive, and so none
of them is negative.  A raw line that is not too long is extracted as the text that it is. -/
theorem feedText_numbers {σ : Type} [Sink σ] {reader : TimeReader} {text : String} {f : Format}
    (h : compile reader text = .ok f) {segments : List Segment}
    (hscan : Segment.scan text = .ok segments) {line : String} {captures : List (Option Capture)}
    (hline : f.line.captures? line = some captures) (columns : List Nat) (maxLineSize : Nat)
    (s : Recorded σ) :
  let x : Extractor := ⟨f, columns, maxLineSize⟩
  let directives := segments.filterMap (·.directive)
  ∃ found : List Capture, captures = found.map some
    ∧ (∀ i d, directives[i]? = some d → ∃ field word,
        Stands directives f.fields (found.map (·.text)) i d field word
          ∧ (d.key ∈ numberKeys →
            (word = ['-'] ∨ IsNumeral word ∧ (d.key = 's' → word.length = 3))
              ∧ field.TakesExactly word))
    ∧ ((∀ i d field word, Stands directives f.fields (found.map (·.text)) i d field word →
          d.key ∉ numberKeys → ∃ v, field.convert (String.ofList word) = .ok v) →
        ((∃ e, (x.feedText line s).1 = .error e)
          ↔ ∃ i d field word, Stands directives f.fields (found.map (·.text)) i d field word
              ∧ d.key ∈ numberKeys ∧ IsNumeral word ∧ 2 ^ 63 ≤ digitsValue word))
    ∧ (∃ calls, (x.feedText line s).2.calls = s.calls ++ calls
        ∧ ∀ (column : Nat) (n : Int), .write column (.integer n) ∈ calls →
          ∃ i d field word, Stands directives f.fields (found.map (·.text)) i d field word
            ∧ columns[i]? = some column ∧ d.key ∈ numberKeys ∧ IsNumeral word
            ∧ digitsValue word < 2 ^ 63 ∧ n = digitsValue word)
    ∧ ∀ raw, raw.length ≤ maxLineSize → (decode? raw).map Extractor.withoutReturn = some line →
        x.feed raw s = x.feedText line s
  := by
  intro x directives
  obtain ⟨resolved, hresolves, rfl⟩ := compile_eq_ok_iff.1 h
  obtain rfl : resolved.map (·.segment) = segments :=
    Except.ok.inj (hresolves.scan.symm.trans hscan)
  obtain ⟨found, rfl, hdivide, -⟩ := (captures?_of_resolves hresolves line).2 captures hline
  have hmakes : List.Forall₂ (Directive.Makes reader) directives x.format.fields :=
    Resolved.forall₂_makes hresolves.sound
  have haccepts : List.Forall₂ Field.Accepts x.format.fields (found.map (·.text)) :=
    hdivide.accepts
  have hlength : found.length = x.format.fields.length := by
    rw [haccepts.length_eq, List.length_map]
  have houtcome := feedText_outcome (x := x) hline hlength s
  refine ⟨found, rfl, fun i d hd => ?_, fun hothers => ?_, ?_, fun raw hsize hraw => ?_⟩
  · obtain ⟨field, word, hstands, hmake, haccept⟩ :=
      exists_stands_of_directive hmakes haccepts hd
    exact ⟨field, word, hstands, fun hkey => hmake.takesExactly hkey haccept⟩
  · apply Iff.trans _ (exists_refuses_iff hmakes haccepts hothers)
    obtain ⟨values, hconverts, hok, -⟩ | ⟨index, name, cause, hrefuses, hfeed⟩ := houtcome
    · simp only [hok, reduceCtorEq, exists_false, false_iff, not_exists]
      exact fun i name cause => hconverts.not_refuses
    · simp only [hfeed, Except.error.injEq, exists_eq', true_iff]
      exact ⟨index, name, cause, hrefuses⟩
  · obtain ⟨values, hconverts, -, hcalls⟩ | ⟨index, name, cause, -, hfeed⟩ := houtcome
    · refine ⟨_, hcalls, fun column n hmem => ?_⟩
      obtain ⟨i, hi⟩ := List.mem_iff_getElem?.1 hmem
      obtain ⟨_, v, hcolumn, hv, hwrite⟩ := List.getElem?_zipWith_eq_some.1 hi
      cases hwrite
      obtain ⟨d, field, word, hstands, hkey, hnumeral⟩ :=
        hconverts.exists_numeral hmakes haccepts hv
      exact ⟨i, d, field, word, hstands, hcolumn, hkey, hnumeral⟩
    · exact ⟨[], by simp [hfeed], by simp⟩
  · obtain ⟨whole, hdecode, rfl⟩ := Option.map_eq_some_iff.1 hraw
    rw [Extractor.feed, if_neg (Nat.not_lt.2 hsize), hdecode]

/-- A status is missing, and the number of bytes after it is the first that does not fit. -/
theorem feedText_numbers_limit :
  ∃ f segments, compile (fun _ _ => .error "") "%s-%b" = .ok f
    ∧ Segment.scan "%s-%b" = .ok segments
    ∧ f.line.captures? "--9223372036854775808"
        = some [some ⟨0, ['-']⟩, some ⟨2, "9223372036854775808".toList⟩]
    ∧ ∃ e, (Extractor.feedText ⟨f, [0, 1], 100⟩ "--9223372036854775808"
        (⟨f.sink, []⟩ : Recorded RecordSink)).1 = .error e
  := by
  let resolved : List Resolved :=
    [⟨⟨0, ['%', 's'], some ⟨'s', none, false, [], none⟩⟩,
        some ⟨"response-status", SubPattern.status, .integer⟩⟩,
      ⟨⟨2, ['-'], none⟩, none⟩,
      ⟨⟨3, ['%', 'b'], some ⟨'b', none, false, [], none⟩⟩,
        some ⟨"response-bytes", SubPattern.integer, .integer⟩⟩]
  have hscan : Segment.scan "%s-%b" = .ok (resolved.map (·.segment)) := by cbv
  have hcompile : compile (fun _ _ => .error "") "%s-%b" = .ok (ofResolved "%s-%b" resolved) :=
    compile_of_resolves (resolves_of_mapM hscan rfl)
  have hline : (ofResolved "%s-%b" resolved).line.captures? "--9223372036854775808"
      = some [some ⟨0, ['-']⟩, some ⟨2, "9223372036854775808".toList⟩] := by cbv
  obtain ⟨found, hfound, hstands, hfails, -⟩ := feedText_numbers hcompile hscan hline [0, 1] 100
    ⟨(ofResolved "%s-%b" resolved).sink, []⟩
  obtain rfl : found = [⟨0, ['-']⟩, ⟨2, "9223372036854775808".toList⟩] :=
    List.map_injective_iff.2 (Option.some_injective _) hfound.symm
  refine ⟨_, _, hcompile, hscan, hline, (hfails ?_).2 ?_⟩
  · have hkeys : ∀ d ∈ (resolved.map (·.segment)).filterMap (·.directive),
        d.key ∈ numberKeys := by
      decide
    intro i d field word hplace hkey
    apply absurd (hkeys d (List.mem_of_getElem? hplace.directive)) hkey
  · obtain ⟨field, word, hplace, -⟩ := hstands 1 _ rfl
    cases hplace.word
    have hdigits : "9223372036854775808".toList.all Char.isDigit := by decide +kernel
    have hvalue : digitsValue "9223372036854775808".toList = 2 ^ 63 := by cbv
    exact ⟨1, _, field, _, hplace, by decide, ⟨by decide, List.all_eq_true.1 hdigits⟩, hvalue.ge⟩

end Format

end LogFormat
