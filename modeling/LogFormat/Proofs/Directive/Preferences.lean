import LogFormat.Proofs.Directive.Words
import LogFormat.Proofs.Format.Compilation
import LogFormat.Proofs.Pattern.Preference

/-!
# What directives prefer

The directives whose texts are anything without a double quote take as little of a line as
they can, and all others take as much as they can (`Directive.Makes.prefers`).  Times whose
layout is given by items are left out: the order in which their items try the texts need not
be that of the lengths.
-/

namespace LogFormat

namespace Pattern

/-- One or more characters of a set begin with one of them. -/
theorem begins_oneOrMore (s : CharSet) (prefer : Preference) :
  (oneOrMore s prefer).Begins (s.has ·)
  := (begins_one s).sequence [] |>.seq _

/-- One or more characters of a set are of a kind if those of the set are. -/
theorem over_oneOrMore {s : CharSet} {P : Char → Prop} (h : ∀ c, s.has c → P c)
    (prefer : Preference) :
  (oneOrMore s prefer).Over P
  := (over_empty.seq (over_one h)).seq (over_many h prefer)

/-- One or more characters of a set are taken as the repetition says. -/
theorem prefers_oneOrMore (s : CharSet) (prefer : Preference) :
  (oneOrMore s prefer).Prefers prefer
  := Prefers.seq ((delimited_one s).copies 1) (prefers_many s prefer)

end Pattern

namespace SubPattern

open Pattern

/-! ### Bodies -/

theorem delimited_hyphen :
  hyphen.Delimited
  := delimited_empty.seq (delimited_one _)

theorem begins_hyphen :
  hyphen.Begins ((CharSet.single '-').has ·)
  := (begins_one _).sequence []

theorem prefers_nonSpaceBody :
  nonSpaceBody.Prefers .longest
  := Prefers.sequence (prefers_many _ _)

theorem prefers_integerBody :
  integerBody.Prefers .longest
  := by
  apply Prefers.either (delimited_hyphen.prefers .longest)
  · exact Prefers.sequence (prefers_oneOrMore _ _)
  · apply begins_hyphen.outranks ((begins_oneOrMore _ _).sequence [])
    intro c
    simp [CharSet.single, CharSet.has, SetItem.has, digits]
    omega

theorem prefers_statusBody :
  statusBody.Prefers .longest
  := by
  have hdigits : (copies (one digits) 3).Delimited := (delimited_one _).copies 3
  apply Prefers.either ((delimited_empty.seq hdigits).prefers .longest)
    (delimited_hyphen.prefers .longest)
  have hbegins : (copies (one digits) 3).Begins (digits.has ·) :=
    ((((begins_one digits).sequence []).seq _).seq _)
  apply (hbegins.sequence []).outranks begins_hyphen
  intro c
  simp [CharSet.single, CharSet.has, SetItem.has, digits]
  omega

theorem prefers_methodBody :
  methodBody.Prefers .longest
  := by
  apply Prefers.either (Prefers.sequence (prefers_oneOrMore _ _))
    (delimited_hyphen.prefers .longest)
  apply ((begins_oneOrMore _ _).sequence []).outranks begins_hyphen
  intro c
  simp [CharSet.single, CharSet.has, SetItem.has]
  omega

theorem prefers_queryBody :
  queryBody.Prefers .longest
  := by
  apply Prefers.sequence
  apply Prefers.optional
  exact Prefers.seq (delimited_empty.seq (delimited_one _)) (prefers_many _ _)

theorem prefers_pathBody :
  pathBody.Prefers .longest
  := by
  apply Prefers.either _ (delimited_hyphen.prefers .longest)
  · apply ((begins_one _).sequence _).outranks begins_hyphen
    intro c
    simp [CharSet.single, CharSet.has, SetItem.has]
    omega
  · exact Prefers.seq (delimited_empty.seq (delimited_one _)) (prefers_many _ _)

theorem prefers_connectionBody :
  connectionBody.Prefers .longest
  := (delimited_empty.seq (delimited_one _)).prefers .longest

theorem prefers_percentBody :
  percentBody.Prefers .longest
  := (delimited_empty.seq (delimited_one _)).prefers .longest

theorem prefers_bracketedTimeBody :
  bracketedTimeBody.Prefers .longest
  := by
  apply Prefers.either _ (Prefers.sequence (prefers_oneOrMore _ _))
  · apply ((begins_one _).sequence _).outranks ((begins_oneOrMore _ _).sequence [])
    intro c
    simp [CharSet.single, CharSet.has, SetItem.has, unbracketed]
    omega
  · have hopen : (one (.single '[')).Over (· ≠ ']') := by
      apply over_one
      rintro c hc rfl
      revert hc
      decide
    have hshown : (oneOrMore unbracketed .longest).Over (· ≠ ']') := by
      apply over_oneOrMore
      rintro c hc rfl
      revert hc
      decide
    apply (delimited_seq_single ((over_empty.seq hopen).seq hshown)).prefers

/-- Numbers of one to three digits. -/
theorem over_byteNumber {P : Char → Prop} (h : ∀ c, digits.has c → P c) :
  byteNumber.Over P
  := (over_empty.seq (over_one h)).seq ((over_one h).upTo 2)

theorem delimited_byteNumber_period :
  (sequence [byteNumber, one (.single '.')]).Delimited
  := by
  have hbyte : byteNumber.Over (· ≠ '.') := by
    apply over_byteNumber
    rintro c hc rfl
    revert hc
    decide
  exact delimited_seq_single (over_empty.seq hbyte)

theorem prefers_epochBody :
  epochBody.Prefers .longest
  := Prefers.sequence (prefers_oneOrMore _ _)

theorem prefers_addressBody :
  addressBody.Prefers .longest
  := by
  apply Prefers.either
  · apply Prefers.seq (delimited_empty.seq (delimited_byteNumber_period.copies 3))
    exact Prefers.seq ((delimited_one _).copies 1) ((delimited_one _).prefers_upTo 2)
  · have hhex : (many ⟨false, hexDigits⟩ .longest).Over (· ≠ ':') := by
      apply over_many
      rintro c hc rfl
      revert hc
      decide
    exact Prefers.seq (delimited_seq_single (over_empty.seq hhex)) (prefers_oneOrMore _ _)
  · -- The first character that is no hexadecimal digit is a period or a colon.
    have hbyte : byteNumber.Over ((⟨false, hexDigits⟩ : CharSet).has ·) := by
      apply over_byteNumber
      intro c
      simp [digits, hexDigits, CharSet.has, SetItem.has]
      omega
    have hperiod : (sequence [byteNumber, one (.single '.')]).Reaches
        ((⟨false, hexDigits⟩ : CharSet).has ·) '.' :=
      reaches_single (over_empty.seq hbyte) '.'
    have hquad : (copies (sequence [byteNumber, one (.single '.')]) 3).Reaches
        ((⟨false, hexDigits⟩ : CharSet).has ·) '.' :=
      ((hperiod.sequence []).seq _).seq _
    have hcolon := reaches_single
      (over_empty.seq (over_many (s := ⟨false, hexDigits⟩) (fun _ hc => hc) .longest)) ':'
    exact (hquad.sequence [byteNumber]).outranks (hcolon.seq _) (by decide) (by decide)
      (by decide) .longest

/-- What a written sub-pattern of the table prefers. -/
def preferenceOf (written : String) : Preference :=
  if written = any then .shortest else .longest

/-- Anything without a double quote is taken as short as possible, and the texts of every
other sub-pattern of the table as long as possible. -/
theorem prefers_of_mem_bodies {written : String} {body : Pattern}
    (h : (written, body) ∈ bodies) :
  body.Prefers (preferenceOf written)
  := by
  simp only [bodies, List.mem_cons, Prod.mk.injEq, List.not_mem_nil, or_false] at h
  rcases h with ⟨rfl, rfl⟩ | ⟨rfl, rfl⟩ | ⟨rfl, rfl⟩ | ⟨rfl, rfl⟩ | ⟨rfl, rfl⟩ | ⟨rfl, rfl⟩
    | ⟨rfl, rfl⟩ | ⟨rfl, rfl⟩ | ⟨rfl, rfl⟩ | ⟨rfl, rfl⟩ | ⟨rfl, rfl⟩ | ⟨rfl, rfl⟩
  · exact prefers_anyBody
  · exact prefers_nonSpaceBody
  · exact prefers_addressBody
  · exact prefers_integerBody
  · exact prefers_statusBody
  · exact prefers_methodBody
  · exact prefers_queryBody
  · exact prefers_pathBody
  · exact prefers_connectionBody
  · exact prefers_percentBody
  · exact prefers_bracketedTimeBody
  · exact prefers_epochBody

end SubPattern

/-! ### Directives -/

/-- The keys of the directives whose texts are anything without a double quote. -/
def anyKeys : List Char :=
  ['C', 'e', 'f', 'h', 'i', 'n', 'o', 'r', 'u']

/-- Whether the directive takes the shortest or the longest text that it can. -/
def Directive.preference (d : Directive) : Preference :=
  if d.key ∈ anyKeys then .shortest else .longest

/-- The directive is not a time whose layout is given by items. -/
def Directive.Plain (d : Directive) : Prop :=
  d.key = 't' → ∀ text items, Layout.ofParameter d.parameter ≠ .ok (.strftime text items)

/-- A line of the table with a sub-pattern has that of the directives that take as little as
they can exactly if its key is one of theirs. -/
theorem TableEntry.preferenceOf_eq {e : TableEntry} (he : e ∈ directiveTable)
    {written : String} (h : e.maker.subPattern? = some written) :
  SubPattern.preferenceOf written = if e.key ∈ anyKeys then .shortest else .longest
  := by
  have hall : ∀ e ∈ directiveTable, e.maker.subPattern?.all fun written =>
      SubPattern.preferenceOf written = if e.key ∈ anyKeys then .shortest else .longest := by
    decide
  simpa [h] using hall e he

/-- The field of a directive prefers what the directive does. -/
theorem Directive.Makes.prefers {reader : TimeReader} {d : Directive} {field : Field}
    (h : d.Makes reader field) (hplain : d.Plain) :
  field.body.Prefers d.preference
  := by
  obtain ⟨e, he, hkey, hfield⟩ := h
  have hbody : field.subPattern ∈ SubPattern.bodies.map (·.1) →
      field.body.Prefers (SubPattern.preferenceOf field.subPattern) := by
    intro hmem
    obtain ⟨⟨_, body⟩, hmem, rfl⟩ := List.mem_map.1 hmem
    rw [(SubPattern.readsGroup_of_mem_bodies hmem).body_eq]
    exact SubPattern.prefers_of_mem_bodies hmem
  have htable : ∀ {written}, e.maker.subPattern? = some written →
      field.subPattern = written → field.body.Prefers d.preference := by
    rintro _ hmaker rfl
    rw [preference, ← hkey, ← e.preferenceOf_eq he hmaker]
    exact hbody (mem_bodies_of_mem_directiveTable he hmaker)
  rw [TableEntry.field?] at hfield
  split at hfield
  · next hmaker =>
    cases hfield
    exact htable (by rw [hmaker]; rfl) rfl
  · next hmaker =>
    cases hfield
    exact htable (by rw [hmaker]; rfl) rfl
  · next hmaker =>
    have ht : d.key = 't' := hkey ▸ (TableEntry.maker_eq_timestamp_iff he).1 hmaker
    obtain ⟨layout, hlayout, hfield⟩ := bind_eq_ok.1 hfield
    cases hfield
    have hpreference : d.preference = .longest := by
      rw [preference, ht]
      rfl
    rw [hpreference]
    cases layout with
    | commonLog =>
      have hmem : SubPattern.bracketedTime ∈ SubPattern.bodies.map (·.1) := by decide
      apply hbody hmem
    | epoch unit =>
      have hmem : SubPattern.epoch ∈ SubPattern.bodies.map (·.1) := by decide
      apply hbody hmem
    | strftime text items => exact absurd hlayout (hplain ht text items)

end LogFormat
