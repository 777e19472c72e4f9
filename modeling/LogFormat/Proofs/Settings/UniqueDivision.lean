import LogFormat.Proofs.Directive.Words
import LogFormat.Proofs.Settings.Access
import LogFormat.Proofs.Text.Separators

/-!
# The one division of the line of an access

A line in a named format can only be divided into the texts it was written from, once the
host is taken as short as possible (`words_eq`): the request, the status and what comes
after them are found from the end of the line, the host and the log name from its start,
and the user between them ends where the bracket of the time begins.
-/

namespace LogFormat

open Pattern SubPattern Resolved

/-! ### Unique divisions -/

/-- The part of a line up to the time has one division with a host that is not longer than
one without spaces. -/
theorem head_unique {h l u t h' l' u' t' : List Char} (hh : ' ' ∉ h)
    (hle : h'.length ≤ h.length) (hl : ' ' ∉ l) (hl' : ' ' ∉ l')
    (ht : ∀ c ∈ t, c ≠ '[' ∧ c ≠ ']') (ht' : t' ∈ bracketedTimeBody.language)
    (heq : h ++ ' ' :: (l ++ ' ' :: (u ++ ' ' :: '[' :: (t ++ [']'])))
      = h' ++ ' ' :: (l' ++ ' ' :: (u' ++ ' ' :: t'))) :
  h = h' ∧ l = l' ∧ u = u' ∧ '[' :: (t ++ [']']) = t'
  := by
  obtain ⟨rfl, hrest⟩ := eq_of_length_le hh hle heq
  obtain ⟨rfl, hrest'⟩ := eq_of_not_mem_left hl hl' hrest
  -- The text of the time ends with a bracket, and so it begins with one.
  obtain ⟨t₀, hne, hall, rfl | rfl⟩ := mem_language_bracketedTimeBody.1 ht'
  · have hopen : (u ++ [' ']) ++ '[' :: t = (u' ++ [' ']) ++ '[' :: t₀ := by
      apply (List.append_left_inj [']']).1
      simpa using hrest'
    have hnot : ∀ {t : List Char}, (∀ c ∈ t, c ≠ '[' ∧ c ≠ ']') → '[' ∉ t :=
      fun h hmem => (h _ hmem).1 rfl
    obtain ⟨huser, rfl⟩ := eq_of_not_mem_right (hnot ht) (hnot hall) hopen
    exact ⟨rfl, rfl, List.append_cancel_right huser, rfl⟩
  · have hclose : (u ++ ' ' :: '[' :: t) ++ [']'] = (u' ++ [' ']) ++ t' := by
      simpa using hrest'
    have hlast : t'.getLast? = some ']' := by
      rw [← List.getLast?_append_of_ne_nil (u' ++ [' ']) hne, ← hclose, List.getLast?_concat]
    apply absurd rfl (hall _ (List.mem_of_getLast? hlast)).2

/-- The part of a line after the time has one division. -/
theorem tail_unique {x r s b x' r' s' b' : List Char} (hr : '"' ∉ r) (hr' : '"' ∉ r')
    (hs : ' ' ∉ s) (hs' : ' ' ∉ s') (hb : ' ' ∉ b) (hb' : ' ' ∉ b')
    (heq : x ++ ' ' :: '"' :: (r ++ '"' :: ' ' :: (s ++ ' ' :: b))
      = x' ++ ' ' :: '"' :: (r' ++ '"' :: ' ' :: (s' ++ ' ' :: b'))) :
  x = x' ∧ r = r' ∧ s = s' ∧ b = b'
  := by
  have hsize : (x ++ ' ' :: '"' :: (r ++ '"' :: ' ' :: s)) ++ ' ' :: b
      = (x' ++ ' ' :: '"' :: (r' ++ '"' :: ' ' :: s')) ++ ' ' :: b' := by simpa using heq
  obtain ⟨hbefore, rfl⟩ := eq_of_not_mem_right hb hb' hsize
  have hstatus : (x ++ ' ' :: '"' :: (r ++ ['"'])) ++ ' ' :: s
      = (x' ++ ' ' :: '"' :: (r' ++ ['"'])) ++ ' ' :: s' := by simpa using hbefore
  obtain ⟨hbefore', rfl⟩ := eq_of_not_mem_right hs hs' hstatus
  have hrequest : (x ++ [' ']) ++ '"' :: r = (x' ++ [' ']) ++ '"' :: r' := by
    apply (List.append_left_inj ['"']).1
    simpa using hbefore'
  obtain ⟨hhead, rfl⟩ := eq_of_not_mem_right hr hr' hrequest
  exact ⟨List.append_cancel_right hhead, rfl, rfl, rfl⟩

/-- Two quoted texts at the end of a line have one division. -/
theorem headers_unique {x f g x' f' g' : List Char} (hf : '"' ∉ f) (hf' : '"' ∉ f')
    (hg : '"' ∉ g) (hg' : '"' ∉ g')
    (heq : x ++ ' ' :: '"' :: (f ++ '"' :: ' ' :: '"' :: (g ++ ['"']))
      = x' ++ ' ' :: '"' :: (f' ++ '"' :: ' ' :: '"' :: (g' ++ ['"']))) :
  x = x' ∧ f = f' ∧ g = g'
  := by
  have hagent : (x ++ ' ' :: '"' :: (f ++ ['"', ' '])) ++ '"' :: g
      = (x' ++ ' ' :: '"' :: (f' ++ ['"', ' '])) ++ '"' :: g' := by
    apply (List.append_left_inj ['"']).1
    simpa using heq
  obtain ⟨hbefore, rfl⟩ := eq_of_not_mem_right hg hg' hagent
  have hreferer : (x ++ [' ']) ++ '"' :: f = (x' ++ [' ']) ++ '"' :: f' := by
    apply (List.append_left_inj ['"', ' ']).1
    simpa using hbefore
  obtain ⟨hbefore', rfl⟩ := eq_of_not_mem_right hf hf' hreferer
  exact ⟨List.append_cancel_right hbefore', rfl, rfl⟩

/-! ### Words of the named formats -/

theorem accepts_any (name : String) (w : List Char) :
  (⟨name, SubPattern.any, .string⟩ : Field).Accepts w ↔ '"' ∉ w
  := (Field.accepts_iff_of_mem_bodies (by simp [bodies]) w).trans mem_language_anyBody

theorem accepts_nonSpace (name : String) (w : List Char) :
  (⟨name, SubPattern.nonSpace, .string⟩ : Field).Accepts w ↔ ∀ c ∈ w, ¬isBlank c
  := (Field.accepts_iff_of_mem_bodies (by simp [bodies]) w).trans mem_language_nonSpaceBody

theorem accepts_status (name : String) (w : List Char) :
  (⟨name, SubPattern.status, .integer⟩ : Field).Accepts w
    ↔ (w.length = 3 ∧ ∀ c ∈ w, c.isDigit) ∨ w = ['-']
  := (Field.accepts_iff_of_mem_bodies (by simp [bodies]) w).trans mem_language_statusBody

theorem accepts_integer (name : String) (w : List Char) :
  (⟨name, SubPattern.integer, .integer⟩ : Field).Accepts w
    ↔ w = ['-'] ∨ w ≠ [] ∧ ∀ c ∈ w, c.isDigit
  := (Field.accepts_iff_of_mem_bodies (by simp [bodies]) w).trans mem_language_integerBody

theorem accepts_time (zone : Offset) (w : List Char) :
  (Nickname.timeField zone).Accepts w ↔ w ∈ bracketedTimeBody.language
  := Field.accepts_iff_of_mem_bodies
    (by simp [bodies, Nickname.timeField, Field.timestamp, Layout.subPattern]) w

/-- The conditions under which the fields of the common format accept words. -/
structure CommonWords (host logName user time requestLine status size : List Char) : Prop where
  host : '"' ∉ host
  logName : ∀ c ∈ logName, ¬isBlank c
  user : '"' ∉ user
  time : time ∈ bracketedTimeBody.language
  requestLine : '"' ∉ requestLine
  status : (status.length = 3 ∧ ∀ c ∈ status, c.isDigit) ∨ status = ['-']
  size : size = ['-'] ∨ size ≠ [] ∧ ∀ c ∈ size, c.isDigit

/-- The fields of the common format, with more after them, accept such words and more after
them. -/
theorem accepts_common {start : Nat} {zone : Offset} {more : List Field}
    {words : List (List Char)} :
  List.Forall₂ Field.Accepts (fields (Nickname.commonResolved start zone) ++ more) words
    ↔ ∃ h l u t r s b others, words = h :: l :: u :: t :: r :: s :: b :: others
      ∧ CommonWords h l u t r s b ∧ List.Forall₂ Field.Accepts more others
  := by
  change List.Forall₂ Field.Accepts (_ :: _ :: _ :: _ :: _ :: _ :: _ :: more) words ↔ _
  constructor
  · rintro (_ | ⟨hh, _ | ⟨hl, _ | ⟨hu, _ | ⟨ht, _ | ⟨hr, _ | ⟨hs, _ | ⟨hb, hmore⟩⟩⟩⟩⟩⟩⟩)
    exact ⟨_, _, _, _, _, _, _, _, rfl, ⟨(accepts_any _ _).1 hh, (accepts_nonSpace _ _).1 hl,
      (accepts_any _ _).1 hu, (accepts_time _ _).1 ht, (accepts_any _ _).1 hr,
      (accepts_status _ _).1 hs, (accepts_integer _ _).1 hb⟩, hmore⟩
  · rintro ⟨h, l, u, t, r, s, b, others, rfl, ⟨hh, hl, hu, ht, hr, hs, hb⟩, hmore⟩
    exact .cons ((accepts_any _ _).2 hh) (.cons ((accepts_nonSpace _ _).2 hl)
      (.cons ((accepts_any _ _).2 hu) (.cons ((accepts_time _ _).2 ht)
      (.cons ((accepts_any _ _).2 hr) (.cons ((accepts_status _ _).2 hs)
      (.cons ((accepts_integer _ _).2 hb) hmore))))))

/-- The words of the common format woven into its literal texts, with more after them. -/
theorem weave_common (start : Nat) (zone : Offset) (h l u t r s b : List Char)
    (more : List Segment) (words : List (List Char)) :
  Segment.weave id ((Nickname.commonResolved start zone).map (·.segment) ++ more)
      (h :: l :: u :: t :: r :: s :: b :: words)
    = commonText h l u t r s b ++ Segment.weave id more words
  := by
  have hweave : Segment.weave id
      ((Nickname.commonResolved start zone).map (·.segment) ++ more)
      (h :: l :: u :: t :: r :: s :: b :: words)
    = h ++ ' ' :: (l ++ ' ' :: (u ++ ' ' :: (t ++ ' ' :: '"' :: (r ++ '"' :: ' ' ::
        (s ++ ' ' :: (b ++ Segment.weave id more words)))))) := rfl
  rw [hweave, commonText]
  simp

/-! ### The words of an access -/

namespace Access

/-- The text of the time inside its brackets. -/
theorem commonLogText_unbracketed (a : Access) :
  ∀ c ∈ a.time.commonLogText a.zone, c ≠ '[' ∧ c ≠ ']'
  := by
  intro c hc
  have hmem := Instant.mem_commonLogText hc
  constructor <;> rintro rfl <;> exact absurd hmem (by decide)

/-- The texts of an access are accepted by the fields of the common format. -/
theorem commonWords_accepted (a : Access) :
  CommonWords a.host a.logName a.user a.timeText a.requestLine a.status a.size
  := by
  refine ⟨a.host_unquoted.1, a.logName_nonblank, a.user_unquoted.1, ?_,
    a.requestLine_unquoted.1, a.status_digits, ?_⟩
  · refine mem_language_bracketedTimeBody.2 ⟨_, ?_, a.commonLogText_unbracketed, Or.inl rfl⟩
    simp [Instant.commonLogText]
  · rcases a.size_digits with h | ⟨hne, hdigits, -⟩
    · apply Or.inl h
    · apply Or.inr ⟨hne, hdigits⟩

/-- The texts of an access divide its line in a named format. -/
theorem divide_words (a : Access) (n : Nickname) (zone : Offset) :
  Divide (n.resolved zone) (a.words n) (a.line n)
  := by
  have hcommon : ∀ start, List.Forall₂ Field.Accepts
      (fields (Nickname.commonResolved start zone)) a.commonWords := by
    intro start
    rw [← List.append_nil (fields _), accepts_common]
    exact ⟨_, _, _, _, _, _, _, _, rfl, a.commonWords_accepted, .nil⟩
  have hweave : ∀ start, Segment.weave id
      ((Nickname.commonResolved start zone).map (·.segment)) a.commonWords = a.commonLine :=
    fun start => (weave_common start zone _ _ _ _ _ _ _ [] []).trans (List.append_nil _)
  cases n with
  | common => exact ⟨hcommon 0, hweave 0⟩
  | vhostCommon =>
    refine ⟨.cons ((accepts_nonSpace _ _).2 a.serverName_nonblank) (hcommon 3), ?_⟩
    change a.serverName ++ ([' '] ++ Segment.weave id _ a.commonWords) = _
    rw [hweave 3]
    rfl
  | combined =>
    refine ⟨List.rel_append (hcommon 0) (.cons ((accepts_any _ _).2 a.referer_unquoted.1)
      (.cons ((accepts_any _ _).2 a.userAgent_unquoted.1) .nil)), ?_⟩
    apply weave_common 0 zone _ _ _ _ _ _ _ _ [a.referer, a.userAgent]

/-- Blanks are not among characters that are not blank. -/
theorem not_mem_of_nonblank {w : List Char} (h : ∀ c ∈ w, ¬isBlank c) {c : Char}
    (hc : isBlank c) :
  c ∉ w
  := fun hmem => h c hmem hc

/-- A status has no characters but digits and hyphens. -/
theorem not_mem_status {w : List Char} (h : (w.length = 3 ∧ ∀ c ∈ w, c.isDigit) ∨ w = ['-'])
    {c : Char} (hc : ¬c.isDigit) (hc' : c ≠ '-') :
  c ∉ w
  := by
  rcases h with ⟨-, h⟩ | rfl
  · intro hmem
    apply hc (h c hmem)
  · simpa using hc'

/-- A number of bytes has no characters but digits and hyphens. -/
theorem not_mem_size {w : List Char} (h : w = ['-'] ∨ w ≠ [] ∧ ∀ c ∈ w, c.isDigit)
    {c : Char} (hc : ¬c.isDigit) (hc' : c ≠ '-') :
  c ∉ w
  := by
  rcases h with rfl | ⟨-, h⟩
  · simpa using hc'
  · intro hmem
    apply hc (h c hmem)

/-- The common part of a line has one division with a host that is not longer than the one
it was written from. -/
theorem commonWords_unique (a : Access) {h l u t r s b : List Char}
    (hwords : CommonWords h l u t r s b) (hle : h.length ≤ a.host.length)
    (heq : commonText h l u t r s b = a.commonLine) :
  a.commonWords = [h, l, u, t, r, s, b]
  := by
  have ha := a.commonWords_accepted
  have hline : (a.host ++ ' ' :: (a.logName ++ ' ' :: (a.user ++ ' ' :: a.timeText)))
        ++ ' ' :: '"' :: (a.requestLine ++ '"' :: ' ' :: (a.status ++ ' ' :: a.size))
      = (h ++ ' ' :: (l ++ ' ' :: (u ++ ' ' :: t))) ++ ' ' :: '"' :: (r ++ '"' :: ' ' ::
        (s ++ ' ' :: b)) := by
    simpa [commonLine, commonText] using heq.symm
  obtain ⟨hhead, hr, hs, hb⟩ := tail_unique ha.requestLine hwords.requestLine
    (not_mem_status ha.status (by decide) (by decide))
    (not_mem_status hwords.status (by decide) (by decide))
    (not_mem_size ha.size (by decide) (by decide))
    (not_mem_size hwords.size (by decide) (by decide)) hline
  obtain ⟨hh, hl, hu, ht⟩ := head_unique a.host_nospace hle
    (not_mem_of_nonblank ha.logName (by decide))
    (not_mem_of_nonblank hwords.logName (by decide)) a.commonLogText_unbracketed hwords.time
    hhead
  rw [commonWords, hh, hl, hu, hr, hs, hb, ← ht]
  rfl

/-- The host is taken as short as possible. -/
theorem host_length_le (a : Access) {reader : TimeReader} {start : Nat} {zone : Offset}
    {more : List Resolved}
    (hsound : ∀ r ∈ Nickname.commonResolved start zone ++ more, r.Sound reader)
    {h : List Char} {words others : List (List Char)} {text : List Char}
    (hchosen : Chosen (Nickname.commonResolved start zone ++ more) (h :: words))
    (hdivide : Divide (Nickname.commonResolved start zone ++ more) (h :: words) text)
    (hdivide' : Divide (Nickname.commonResolved start zone ++ more) (a.commonWords ++ others)
      text) :
  h.length ≤ a.host.length
  := by
  have hbody : Nickname.hostField.body = anyBody :=
    (readsGroup_of_mem_bodies (by simp [bodies, Nickname.hostField])).body_eq
  have hprefers : Nickname.hostField.body.Prefers .shortest := hbody ▸ prefers_anyBody
  exact hchosen.favours (hsound _ List.mem_cons_self) rfl hprefers hdivide hdivide'

/-- The words that are chosen to divide a common line are the texts it was written from. -/
theorem commonWords_eq (a : Access) {reader : TimeReader} {start : Nat} {zone : Offset}
    (hsound : ∀ r ∈ Nickname.commonResolved start zone, r.Sound reader)
    {words : List (List Char)}
    (hdivide : Divide (Nickname.commonResolved start zone) words a.commonLine)
    (hdivide' : Divide (Nickname.commonResolved start zone) a.commonWords a.commonLine)
    (hchosen : Chosen (Nickname.commonResolved start zone) words) :
  words = a.commonWords
  := by
  have haccepts := hdivide.accepts
  rw [← List.append_nil (fields _), accepts_common] at haccepts
  obtain ⟨h, l, u, t, r, s, b, _, rfl, hwords, ⟨⟩⟩ := haccepts
  have hweave := hdivide.weave_eq
  rw [← List.append_nil (List.map _ _), weave_common, Segment.weave_nil,
    List.append_nil] at hweave
  rw [← List.append_nil (Nickname.commonResolved start zone)] at hsound hchosen hdivide hdivide'
  rw [← List.append_nil a.commonWords] at hdivide'
  have hle := a.host_length_le hsound hchosen hdivide hdivide'
  apply (a.commonWords_unique hwords hle hweave).symm

/-- The words that are chosen to divide the line of an access are the texts it was written
from. -/
theorem words_eq (a : Access) {n : Nickname} {zone : Offset} {words : List (List Char)}
    (hdivide : Divide (n.resolved zone) words (a.line n))
    (hchosen : Chosen (n.resolved zone) words) :
  words = a.words n
  := by
  have hsound := (n.resolves zone).sound
  have hdivide' := a.divide_words n zone
  cases n with
  | common => exact a.commonWords_eq hsound hdivide hdivide' hchosen
  | vhostCommon =>
    have hserver := hsound _ List.mem_cons_self
    have hspace := hsound _ (List.mem_cons_of_mem _ List.mem_cons_self)
    have hcommon := fun r hr => hsound r (List.mem_cons_of_mem _ (List.mem_cons_of_mem _ hr))
    obtain ⟨v, _, words, rfl, hv, hafter, hline⟩ := (divide_field hserver rfl).1 hdivide
    obtain ⟨_, _, _, ⟨⟩, -, hafter', hline'⟩ := (divide_field hserver rfl).1 hdivide'
    obtain ⟨rest, hrest, rfl⟩ := (divide_literal hspace rfl).1 hafter
    obtain ⟨rest', hrest', rfl⟩ := (divide_literal hspace rfl).1 hafter'
    have hv' : ' ' ∉ v := not_mem_of_nonblank ((accepts_nonSpace _ _).1 hv) (by decide)
    have hserver' : ' ' ∉ a.serverName := not_mem_of_nonblank a.serverName_nonblank (by decide)
    obtain ⟨rfl, rfl⟩ := eq_of_not_mem_left hv' hserver' hline
    obtain ⟨-, rfl⟩ := eq_of_not_mem_left hserver' hserver' hline'
    rw [a.commonWords_eq hcommon hrest hrest' hchosen.2]
    rfl
  | combined =>
    have haccepts := hdivide.accepts
    rw [Nickname.resolved, fields, List.filterMap_append, ← fields, accepts_common] at haccepts
    obtain ⟨h, l, u, t, r, s, b, others, rfl, hwords, hothers⟩ := haccepts
    obtain _ | ⟨hf, _ | ⟨hg, ⟨⟩⟩⟩ := hothers
    have hle := a.host_length_le hsound hchosen hdivide hdivide'
    have hweave := hdivide.weave_eq
    rw [Nickname.resolved, List.map_append, weave_common] at hweave
    obtain ⟨heq, hf', hg'⟩ := headers_unique ((accepts_any _ _).1 hf) a.referer_unquoted.1
      ((accepts_any _ _).1 hg) a.userAgent_unquoted.1 hweave
    rw [words, a.commonWords_unique hwords hle heq, hf', hg']
    rfl

end Access

end LogFormat
