import LogFormat.Pattern.Written
import LogFormat.Proofs.Pattern.Language

/-!
# Reading written patterns part by part

A piece of a written pattern is read as a list of parts (`Reads`) if, wherever it stands
outside of sets and escapes, reading it adds these parts to the present alternative and
changes nothing else but the number of groups.  Pieces one after the other are read as
their parts one after the other (`Reads.append`), quoted text is read as its characters
(`reads_quote`), and a piece in brackets is read as a group (`Reads.brackets`).  A written
pattern that is read as a list of parts is the pattern of these parts in sequence
(`Reads.read`).  `ReadsGroup` is the case of a single group without groups in it.
-/

namespace LogFormat

namespace Pattern

/-- The sequence of some parts. -/
def sequence (parts : List Pattern) : Pattern :=
  parts.foldl seq empty

/-- A sequence has no groups if none of its parts has. -/
theorem groupless_sequence {parts : List Pattern} (h : ∀ p ∈ parts, p.groupless) :
  (sequence parts).groupless
  := by
  suffices ∀ q : Pattern, q.groupless → (parts.foldl seq q).groupless from this empty rfl
  induction parts with
  | nil => exact fun q hq => hq
  | cons p parts ih =>
    intro q hq
    apply ih fun p' hp' => h p' (List.mem_cons_of_mem p hp')
    simp [groupless, hq, h p List.mem_cons_self]

/-- The level with more parts in its present alternative. -/
def Level.extend (l : Level) (parts : List Pattern) : Level :=
  ⟨l.group, l.earlier, parts.foldl seq l.sequence⟩

@[simp]
theorem Level.extend_nil (l : Level) :
  l.extend [] = l
  := rfl

theorem Level.extend_append (l : Level) (parts others : List Pattern) :
  l.extend (parts ++ others) = (l.extend parts).extend others
  := by
  simp [Level.extend]

namespace Reading

/-- The present level with the last part that has been read. -/
def settled (r : Reading) : Level :=
  r.level.push r.operand

/-- Reading takes a text as the given parts, which may depend on the number of groups
before it, and finds so many groups in it. -/
def Reads (written : List Char) (parts : Nat → List Pattern) (groups : Nat) : Prop :=
  ∀ r : Reading, r.mode = .plain →
    ∃ r', written.foldlM step r = .ok r' ∧ r'.mode = .plain ∧ r'.outer = r.outer
      ∧ r'.groups = r.groups + groups ∧ r'.settled = r.settled.extend (parts r.groups)

/-- Nothing is read as no parts. -/
theorem reads_nil :
  Reads [] (fun _ => []) 0
  := fun r hr => ⟨r, rfl, hr, rfl, rfl, rfl⟩

/-- Two texts one after the other are read as the parts of the first and then those of the
second. -/
theorem Reads.append
    {written others : List Char} {parts parts' : Nat → List Pattern} {groups groups' : Nat}
    (h : Reads written parts groups) (h' : Reads others parts' groups') :
  Reads (written ++ others) (fun g => parts g ++ parts' (g + groups)) (groups + groups')
  := by
  intro r hr
  obtain ⟨r₁, hstep₁, hmode₁, houter₁, hgroups₁, hsettled₁⟩ := h r hr
  obtain ⟨r₂, hstep₂, hmode₂, houter₂, hgroups₂, hsettled₂⟩ := h' r₁ hmode₁
  refine ⟨r₂, ?_, hmode₂, houter₂.trans houter₁, ?_, ?_⟩
  · rw [List.foldlM_append, hstep₁]
    apply hstep₂
  · rw [hgroups₂, hgroups₁, Nat.add_assoc]
  · rw [hsettled₂, hsettled₁, hgroups₁, Level.extend_append]

/-- A quoted character is read as that character. -/
theorem reads_quote_single (c : Char) :
  Reads (if isSpecial c then ['\\', c] else [c]) (fun _ => [one (.single c)]) 0
  := by
  intro r hr
  refine ⟨r.push (one (.single c)), ?_, rfl, rfl, rfl, rfl⟩
  split
  · next h =>
    have hs : c ≠ 's' := by
      rintro rfl
      apply absurd h (by decide)
    have hS : c ≠ 'S' := by
      rintro rfl
      apply absurd h (by decide)
    simp [step, hr, plainStep, bind, Except.bind, pure, Except.pure, h, hs, hS, push]
  · next h =>
    have hplain : r.plainStep c = .ok (r.push (one (.single c))) := by
      unfold plainStep
      split <;> first | exact absurd (by decide) h | rfl
    simp [step, hr, hplain, bind, Except.bind, pure, Except.pure]

/-- A quoted text is read as its characters, one part for each. -/
theorem reads_quote (cs : List Char) :
  Reads (quote cs) (fun _ => cs.map fun c => one (.single c)) 0
  := by
  induction cs with
  | nil => exact reads_nil
  | cons c cs ih => exact (reads_quote_single c).append ih

/-- A quoted text does not begin with a question mark. -/
theorem head?_quote_ne (cs : List Char) :
  (quote cs).head? ≠ some '?'
  := by
  cases cs with
  | nil => simp [quote]
  | cons c cs =>
    rw [quote, List.flatMap_cons]
    split
    · simp
    · next h =>
      rintro hc
      obtain rfl : c = '?' := by simpa using hc
      apply h (by decide)

/-- After an opening bracket, a text that does not begin with a question mark is read as
in a new group. -/
theorem foldlM_step_opened {r : Reading} {cs : List Char} (h : cs.head? ≠ some '?')
    (hne : cs ≠ []) :
  cs.foldlM step { r with mode := .opened }
    = cs.foldlM step (r.enter (some (r.groups + 1)) (r.groups + 1))
  := by
  cases cs with
  | nil => exact absurd rfl hne
  | cons c cs =>
    have hc : c ≠ '?' := by
      rintro rfl
      apply h rfl
    simp only [List.foldlM_cons, step, if_neg hc]
    rfl

/-- A text without groups is read in brackets as one group, unless it begins with a
question mark. -/
theorem Reads.brackets {written : List Char} {parts : List Pattern}
    (h : Reads written (fun _ => parts) 0) (hhead : written.head? ≠ some '?') :
  Reads ('(' :: written ++ [')']) (fun g => [group (g + 1) (sequence parts)]) 1
  := by
  intro r hr
  obtain ⟨r₁, hstep, hmode, houter, hgroups, hsettled⟩ :=
    h (r.enter (some (r.groups + 1)) (r.groups + 1)) rfl
  have hclose : (r₁.level.push r₁.operand).close
      = group (r.groups + 1) (sequence parts) := by
    rw [settled] at hsettled
    rw [hsettled]
    rfl
  refine ⟨⟨r.outer, r.settled, .item (group (r.groups + 1) (sequence parts)), r.groups + 1,
    .plain⟩, ?_, rfl, rfl, rfl, rfl⟩
  have hopen : r.step '(' = .ok { r with mode := .opened } := by
    rw [step, hr]
    rfl
  have houter' : r₁.outer = r.settled :: r.outer := houter
  have hlast : r₁.step ')' = .ok ⟨r.outer, r.settled,
      .item (group (r.groups + 1) (sequence parts)), r.groups + 1, .plain⟩ := by
    rw [step, hmode]
    simp only [plainStep, houter', hclose, hgroups]
    rfl
  have hbody : (written ++ [')']).head? ≠ some '?' := by
    cases written with
    | nil => simp
    | cons c cs => simpa using hhead
  rw [List.cons_append, List.foldlM_cons, hopen]
  change (written ++ [')']).foldlM step { r with mode := .opened } = _
  rw [foldlM_step_opened hbody (by simp), List.foldlM_append, hstep]
  change [')'].foldlM step r₁ = _
  rw [List.foldlM_cons, hlast]
  rfl

/-- A text that is read as some parts is, as a written pattern, the sequence of the
parts. -/
theorem Reads.read {written : String} {parts : Nat → List Pattern} {groups : Nat}
    (h : Reads written.toList parts groups) :
  LinePattern.read written = .ok ⟨sequence (parts 0), groups⟩
  := by
  obtain ⟨r, hstep, hmode, houter, hgroups, hsettled⟩ := h start rfl
  have hlevel : r.level.push r.operand = ⟨none, none, sequence (parts 0)⟩ := hsettled
  have houter' : r.outer = [] := houter
  have hgroups' : r.groups = groups := hgroups.trans (Nat.zero_add groups)
  rw [LinePattern.read, hstep]
  change r.finish = _
  rw [finish, hmode, houter']
  simp only [hlevel, hgroups']
  rfl

end Reading

/-- The written pattern is read as one group with the given body, which has no groups. -/
def ReadsGroup (written : String) (body : Pattern) : Prop :=
  body.groupless ∧ Reading.Reads written.toList (fun g => [group (g + 1) body]) 1

/-- Alone, the written pattern of a group describes the texts of its body. -/
theorem ReadsGroup.read {written : String} {body : Pattern} (h : ReadsGroup written body) :
  LinePattern.read written = .ok ⟨sequence [group 1 body], 1⟩
  := h.2.read

/-- A text is read as one group if it is so whatever stands before it. -/
theorem readsGroup_of_step {written : String} {body : Pattern} (hbody : body.groupless)
    (h : ∀ outer level operand g,
      written.toList.foldlM Reading.step ⟨outer, level, operand, g, .plain⟩
        = .ok ⟨outer, level.push operand, .item (group (g + 1) body), g + 1, .plain⟩) :
  ReadsGroup written body
  := by
  refine ⟨hbody, ?_⟩
  rintro ⟨outer, level, operand, g, mode⟩ rfl
  exact ⟨_, h outer level operand g, rfl, rfl, rfl, rfl⟩

end Pattern

end LogFormat
