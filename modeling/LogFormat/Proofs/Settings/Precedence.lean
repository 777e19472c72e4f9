import LogFormat.Proofs.Results
import LogFormat.Proofs.Text.Bytes
import LogFormat.Proofs.Text.Decimal
import LogFormat.Settings.Load

/-!
# Precedence of settings

A setting has the value that its variable of the environment denotes, or else the one under its key
in the file, or else its default (`Setting.Prevails`).  So it is for each of the settings, whatever
is said of the others, unless there is a file that cannot be used, which is an error in any
environment (`Settings.load_precedence`).
-/

namespace LogFormat

/-! ### Sources of values -/

/-- Whether a value is one of the first source that has any. -/
def FirstOf {α : Type} (first rest : α → Prop) (a : α) : Prop :=
  first a ∨ (∀ b, ¬first b) ∧ rest a

/-- A setting: its variable, the texts of it that denote a value, its key in a file, the values of
the key that it can have, and its default. -/
structure Setting (α : Type) where
  text : Environment → Option Bytes
  Denotes : String → α → Prop
  key : String
  Entry : Toml.Value → α → Prop
  default : α

namespace Setting

/-- A setting that can be any text. -/
def anyText (text : Environment → Option Bytes) (key default : String) : Setting String where
  text := text
  Denotes text value := text = value
  key := key
  Entry value text := value = .string text
  default := default

/-- The format of the lines. -/
def format : Setting String :=
  anyText Environment.format "format" "common"

/-- The zone of times without an offset. -/
def defaultTimezone : Setting String :=
  anyText Environment.defaultTimezone "default_timezone" "UTC"

/-- Whether a line that fails ends the run. -/
def stopOnInvalid : Setting Bool where
  text := Environment.stopOnInvalid
  Denotes text stop := text = if stop then "true" else "false"
  key := "stop_on_invalid_record"
  Entry value stop := value = .boolean stop
  default := false

/-- How long a line may be: digits of a number of 64 bits, maybe after a `+`. -/
def maxLineSize : Setting Nat where
  text := Environment.maxLineSize
  Denotes text size := ∃ digits, (text.toList = digits ∨ text.toList = '+' :: digits)
    ∧ digits ≠ [] ∧ (∀ c ∈ digits, c.isDigit) ∧ digitsValue digits = size ∧ size ≤ maxSize
  key := "max_line_size"
  Entry value size := value = .integer size ∧ size ≤ maxSize
  default := 1048576

variable {α : Type}

/-- Whether the environment gives the setting a value. -/
def Given (k : Setting α) (e : Environment) (a : α) : Prop :=
  ∃ text, k.text e = some (encode text) ∧ k.Denotes text a

/-- Whether the setting can have what is under its key, if anything is. -/
def Fits (k : Setting α) (t : Toml.Entries) : Prop :=
  ∀ value, t.get? k.key = some value → ∃ a, k.Entry value a

end Setting

namespace SettingsFile

/-- Whether the file is a document with the entries. -/
def Holds (file : SettingsFile) (t : Toml.Entries) : Prop :=
  ∃ text, file = .contents (encode text) ∧ Toml.document? text = some t

/-- There are entries of one document at most in a file. -/
theorem Holds.unique {file : SettingsFile} {t t' : Toml.Entries} (h : file.Holds t)
    (h' : file.Holds t') :
  t = t'
  := by
  obtain ⟨text, rfl, ht⟩ := h
  obtain ⟨text', hbytes, ht'⟩ := h'
  have hdecode := congrArg decode? (SettingsFile.contents.inj hbytes)
  rw [decode?_encode, decode?_encode, Option.some_inj] at hdecode
  rw [hdecode, ht'] at ht
  exact (Option.some_inj.1 ht).symm

/-- Whether every setting can have what is under its key, if anything is. -/
structure AllFit (t : Toml.Entries) : Prop where
  format : Setting.format.Fits t
  defaultTimezone : Setting.defaultTimezone.Fits t
  stopOnInvalid : Setting.stopOnInvalid.Fits t
  maxLineSize : Setting.maxLineSize.Fits t

/-- How a file that is there cannot be used. -/
inductive Fails : SettingsFile → LoadError → Prop where
  | unreadable : Fails .unreadable .io
  | noText {bytes : Bytes} (hbytes : ∀ text, bytes ≠ encode text) : Fails (.contents bytes) .io
  | noDocument {text : String} (htext : Toml.document? text = none) :
    Fails (.contents (encode text)) .toml
  | unfit {text : String} {t : Toml.Entries} (htext : Toml.document? text = some t)
    (hunfit : ¬AllFit t) : Fails (.contents (encode text)) .toml

end SettingsFile

namespace Setting

variable {α : Type}

/-- Whether the file has a value of the setting under its key. -/
def Kept (k : Setting α) (file : SettingsFile) (a : α) : Prop :=
  ∃ t value, file.Holds t ∧ t.get? k.key = some value ∧ k.Entry value a

/-- Whether the setting has the value: that of its variable, or else that of the file, or else its
default. -/
def Prevails (k : Setting α) (e : Environment) (file : SettingsFile) : α → Prop :=
  FirstOf (k.Given e) (FirstOf (k.Kept file) (· = k.default))

end Setting

/-! ### Readers of settings -/

/-- The value of the first source is that of an option, or else that of the rest. -/
theorem firstOf_iff {α : Type} {first rest : α → Prop} {x : Option α} {y : α}
    (hfirst : ∀ a, x = some a ↔ first a) (hrest : ∀ a, y = a ↔ rest a) (a : α) :
  x.getD y = a ↔ FirstOf first rest a
  := by
  rw [FirstOf, ← hfirst, ← hrest]
  cases x with
  | none => simp [← hfirst]
  | some b => simp [← hfirst]

namespace Setting

variable {α : Type} {k : Setting α} {readText : String → Option α}
  {readValue : Toml.Value → Option α} {e : Environment} {file : SettingsFile} {t : Toml.Entries}

/-- Whether the texts and values of a setting are read by functions. -/
structure Reads (k : Setting α) (readText : String → Option α)
    (readValue : Toml.Value → Option α) : Prop where
  text : ∀ text a, readText text = some a ↔ k.Denotes text a
  value : ∀ value a, readValue value = some a ↔ k.Entry value a

theorem reads_anyText (text : Environment → Option Bytes) (key default : String) :
  (anyText text key default).Reads some Settings.textOf?
  := by
  refine ⟨fun text a => Option.some_inj, fun value a => ?_⟩
  cases value <;> simp [Settings.textOf?, anyText]

theorem reads_format :
  format.Reads some Settings.textOf?
  :=
  reads_anyText _ _ _

theorem reads_defaultTimezone :
  defaultTimezone.Reads some Settings.textOf?
  :=
  reads_anyText _ _ _

theorem reads_stopOnInvalid :
  stopOnInvalid.Reads readBool? Settings.boolOf?
  := by
  refine ⟨fun text a => ?_, fun value a => ?_⟩
  · rw [readBool?, stopOnInvalid]
    split_ifs with htrue hfalse
    · subst htrue
      cases a <;> simp
    · subst hfalse
      cases a <;> simp
    · cases a <;> simp [htrue, hfalse]
  · cases value <;> simp [Settings.boolOf?, stopOnInvalid]

theorem reads_maxLineSize :
  maxLineSize.Reads (fun text => readSize? text.toList) Settings.sizeOf?
  := by
  refine ⟨fun text a => readSize?_eq_some_iff, fun value a => ?_⟩
  cases value with
  | integer n =>
    simp only [Settings.sizeOf?, maxLineSize, Toml.Value.integer.injEq]
    split_ifs with h
    · rw [Option.some_inj]
      omega
    · simp only [false_iff]
      omega
  | _ => simp [Settings.sizeOf?, maxLineSize]

/-- A variable gives the value that is read from its text. -/
theorem Reads.given_iff (h : k.Reads readText readValue) (a : α) :
  (Environment.text? (k.text e)).bind readText = some a ↔ k.Given e a
  := by
  rw [Environment.text?, Given, Option.bind_eq_some_iff]
  constructor
  · rintro ⟨text, htext, ha⟩
    obtain ⟨bytes, hbytes, htext⟩ := Option.bind_eq_some_iff.1 htext
    rw [decode?_eq_some_iff.1 htext] at hbytes
    exact ⟨text, hbytes, (h.text text a).1 ha⟩
  · rintro ⟨text, hbytes, ha⟩
    refine ⟨text, ?_, (h.text text a).2 ha⟩
    rw [hbytes, Option.bind_some, decode?_encode]

/-- A document keeps the value that is read from what is under the key. -/
theorem Reads.kept_iff (h : k.Reads readText readValue) (hfile : file.Holds t) (a : α) :
  (t.get? k.key).bind readValue = some a ↔ k.Kept file a
  := by
  rw [Kept, Option.bind_eq_some_iff]
  constructor
  · rintro ⟨value, hvalue, ha⟩
    exact ⟨t, value, hfile, hvalue, (h.value value a).1 ha⟩
  · rintro ⟨t', value, hfile', hvalue, ha⟩
    rw [hfile'.unique hfile] at hvalue
    exact ⟨value, hvalue, (h.value value a).2 ha⟩

/-- What is under a key is read if the setting can have it. -/
theorem Reads.entry_of_fits (h : k.Reads readText readValue) (hfits : k.Fits t) :
  Settings.entry t k.key readValue = .ok ((t.get? k.key).bind readValue)
  := by
  rw [Settings.entry]
  cases hvalue : t.get? k.key with
  | none => rfl
  | some value =>
    obtain ⟨a, ha⟩ := hfits value hvalue
    simp [(h.value value a).2 ha]

/-- What the setting cannot have is an error. -/
theorem Reads.entry_of_not_fits (h : k.Reads readText readValue) (hfits : ¬k.Fits t) :
  Settings.entry t k.key readValue = .error .toml
  := by
  rw [Fits] at hfits
  push Not at hfits
  obtain ⟨value, hvalue, hentry⟩ := hfits
  have hnone : readValue value = none := by
    rw [Option.eq_none_iff_forall_ne_some]
    exact fun a ha => hentry a ((h.value value a).1 ha)
  rw [Settings.entry, hvalue]
  simp only [hnone]

end Setting

/-! ### Files -/

namespace Settings

variable {file : SettingsFile} {text : String} {t : Toml.Entries}

/-- The settings of the entries of a document. -/
def ofEntries (t : Toml.Entries) : Settings where
  format := ((t.get? "format").bind textOf?).getD "common"
  defaultTimezone := ((t.get? "default_timezone").bind textOf?).getD "UTC"
  stopOnInvalid := ((t.get? "stop_on_invalid_record").bind boolOf?).getD false
  maxLineSize := ((t.get? "max_line_size").bind sizeOf?).getD 1048576

open Setting in
/-- A document is read if every setting can have what is under its key. -/
theorem ofToml_of_allFit (htext : Toml.document? text = some t) (h : SettingsFile.AllFit t) :
  ofToml text = .ok (ofEntries t)
  := by
  have hformat : entry t "format" textOf? = _ := reads_format.entry_of_fits h.format
  have hzone : entry t "default_timezone" textOf? = _ :=
    reads_defaultTimezone.entry_of_fits h.defaultTimezone
  have hstop : entry t "stop_on_invalid_record" boolOf? = _ :=
    reads_stopOnInvalid.entry_of_fits h.stopOnInvalid
  have hsize : entry t "max_line_size" sizeOf? = _ :=
    reads_maxLineSize.entry_of_fits h.maxLineSize
  rw [ofToml, htext]
  simp only [hformat, hzone, hstop, hsize]
  rfl

open Setting in
/-- A document in which a setting cannot have what is under its key is an error. -/
theorem ofToml_of_not_allFit (htext : Toml.document? text = some t)
    (h : ¬SettingsFile.AllFit t) :
  ofToml text = .error .toml
  := by
  rw [ofToml, htext]
  by_cases hformat : Setting.format.Fits t
  · refine bind_eq_error.2 (.inr ⟨_, reads_format.entry_of_fits hformat, ?_⟩)
    by_cases hzone : Setting.defaultTimezone.Fits t
    · refine bind_eq_error.2 (.inr ⟨_, reads_defaultTimezone.entry_of_fits hzone, ?_⟩)
      by_cases hstop : Setting.stopOnInvalid.Fits t
      · refine bind_eq_error.2 (.inr ⟨_, reads_stopOnInvalid.entry_of_fits hstop, ?_⟩)
        have hsize : ¬Setting.maxLineSize.Fits t := fun hsize => h ⟨hformat, hzone, hstop, hsize⟩
        exact bind_eq_error.2 (.inl (reads_maxLineSize.entry_of_not_fits hsize))
      · exact bind_eq_error.2 (.inl (reads_stopOnInvalid.entry_of_not_fits hstop))
    · exact bind_eq_error.2 (.inl (reads_defaultTimezone.entry_of_not_fits hzone))
  · exact bind_eq_error.2 (.inl (reads_format.entry_of_not_fits hformat))

/-- A document is read as its entries if every setting can have what is under its key. -/
theorem ofFile_of_holds (hfile : file.Holds t) (h : SettingsFile.AllFit t) :
  ofFile file = .ok (ofEntries t)
  := by
  obtain ⟨text, rfl, htext⟩ := hfile
  rw [ofFile, decode?_encode]
  exact ofToml_of_allFit htext h

/-- A file that cannot be used is an error. -/
theorem ofFile_of_fails {error : LoadError} (h : file.Fails error) :
  ofFile file = .error error
  := by
  cases h with
  | unreadable => rfl
  | @noText bytes hbytes =>
    have hdecode : decode? bytes = none := by
      rw [Option.eq_none_iff_forall_ne_some]
      exact fun text htext => hbytes text (decode?_eq_some_iff.1 htext)
    rw [ofFile, hdecode]
  | noDocument htext =>
    rw [ofFile, decode?_encode]
    simp only [ofToml, htext]
  | unfit htext hunfit =>
    rw [ofFile, decode?_encode]
    exact ofToml_of_not_allFit htext hunfit

end Settings

/-- A file that is there can be used or not. -/
theorem SettingsFile.holds_or_fails {file : SettingsFile} (h : file ≠ .missing) :
  (∃ t, file.Holds t ∧ AllFit t) ∨ ∃ error, file.Fails error
  := by
  cases file with
  | missing => exact absurd rfl h
  | unreadable => exact .inr ⟨_, .unreadable⟩
  | contents bytes =>
    by_cases hbytes : ∃ text, bytes = encode text
    · obtain ⟨text, rfl⟩ := hbytes
      cases htext : Toml.document? text with
      | none => exact .inr ⟨_, .noDocument htext⟩
      | some t =>
        by_cases hfit : AllFit t
        · exact .inl ⟨t, ⟨text, rfl, htext⟩, hfit⟩
        · exact .inr ⟨_, .unfit htext hfit⟩
    · exact .inr ⟨_, .noText (not_exists.1 hbytes)⟩

/-! ### The environment above a file -/

/-- Settings that are those of the file, or else the defaults. -/
structure Settings.RestOn (s : Settings) (file : SettingsFile) : Prop where
  format : ∀ a, s.format = a
    ↔ FirstOf (Setting.format.Kept file) (· = Setting.format.default) a
  defaultTimezone : ∀ a, s.defaultTimezone = a
    ↔ FirstOf (Setting.defaultTimezone.Kept file) (· = Setting.defaultTimezone.default) a
  stopOnInvalid : ∀ a, s.stopOnInvalid = a
    ↔ FirstOf (Setting.stopOnInvalid.Kept file) (· = Setting.stopOnInvalid.default) a
  maxLineSize : ∀ a, s.maxLineSize = a
    ↔ FirstOf (Setting.maxLineSize.Kept file) (· = Setting.maxLineSize.default) a

namespace Settings

variable {e : Environment} {file : SettingsFile} {t : Toml.Entries} {s base : Settings}

/-- Without a file, the settings are the defaults. -/
theorem restOn_missing :
  ({} : Settings).RestOn .missing
  := by
  have hnone : ∀ {α : Type} (k : Setting α) (a : α),
      k.default = a ↔ FirstOf (k.Kept .missing) (· = k.default) a := by
    intro α k
    apply firstOf_iff (x := none) _ (fun a => eq_comm)
    intro a
    constructor
    · rintro ⟨⟩
    · rintro ⟨t, value, ⟨text, ⟨⟩, -⟩, -⟩
  exact ⟨hnone Setting.format, hnone Setting.defaultTimezone, hnone Setting.stopOnInvalid,
    hnone Setting.maxLineSize⟩

open Setting in
/-- The settings of the entries are those of their document. -/
theorem restOn_ofEntries (hfile : file.Holds t) :
  (ofEntries t).RestOn file
  := by
  have hdefault : ∀ {α : Type} (k : Setting α) (a : α), k.default = a ↔ a = k.default :=
    fun _ _ => eq_comm
  constructor
  · exact firstOf_iff (reads_format.kept_iff hfile) (hdefault Setting.format)
  · exact firstOf_iff (reads_defaultTimezone.kept_iff hfile) (hdefault Setting.defaultTimezone)
  · exact firstOf_iff (reads_stopOnInvalid.kept_iff hfile) (hdefault Setting.stopOnInvalid)
  · exact firstOf_iff (reads_maxLineSize.kept_iff hfile) (hdefault Setting.maxLineSize)

open Setting in
/-- Settings that the environment overrides are those of the environment, or else what they were. -/
theorem override_eq_iff (hbase : base.RestOn file) :
  e.override base = s
    ↔ Setting.format.Prevails e file s.format
      ∧ Setting.defaultTimezone.Prevails e file s.defaultTimezone
      ∧ Setting.stopOnInvalid.Prevails e file s.stopOnInvalid
      ∧ Setting.maxLineSize.Prevails e file s.maxLineSize
  := by
  have hformat := reads_format.given_iff (e := e)
  have hzone := reads_defaultTimezone.given_iff (e := e)
  rw [Option.bind_fun_some] at hformat hzone
  cases s
  rw [Environment.override, mk.injEq]
  exact and_congr (firstOf_iff hformat hbase.format _)
    (and_congr (firstOf_iff hzone hbase.defaultTimezone _)
      (and_congr (firstOf_iff reads_stopOnInvalid.given_iff hbase.stopOnInvalid _)
        (firstOf_iff reads_maxLineSize.given_iff hbase.maxLineSize _)))

/-- The environment overrides what it has overridden with the same. -/
theorem override_override (e : Environment) (s : Settings) :
  e.override (e.override s) = e.override s
  := by
  have hgetD : ∀ {α : Type} (x : Option α) (a : α), x.getD (x.getD a) = x.getD a := by
    intro α x a
    cases x <;> rfl
  simp only [Environment.override, hgetD]

/-- If there is a file, the settings are its settings, overridden by the environment. -/
theorem load_of_ne_missing (hfile : file ≠ .missing) :
  load e file = ofFile file >>= fun s => .ok (e.override s)
  := by
  cases file with
  | missing => exact absurd rfl hfile
  | _ => rfl

/-- A file that cannot be used is an error in every environment. -/
theorem load_of_fails {error : LoadError} (h : file.Fails error) (e : Environment) :
  load e file = .error error
  := by
  have hfile : file ≠ .missing := by
    rintro rfl
    cases h
  rw [load_of_ne_missing hfile, ofFile_of_fails h]
  rfl

/-- Either the file cannot be used, or the environment overrides the settings of the file. -/
theorem load_eq_override_or_fails (e : Environment) (file : SettingsFile) :
  (∃ base : Settings, base.RestOn file ∧ load e file = .ok (e.override base))
    ∨ ∃ error, file.Fails error
  := by
  by_cases hmissing : file = .missing
  · subst hmissing
    exact .inl ⟨{}, restOn_missing, congrArg Except.ok (override_override e {})⟩
  · obtain ⟨t, hfile, hfit⟩ | hfails := SettingsFile.holds_or_fails hmissing
    · refine .inl ⟨ofEntries t, restOn_ofEntries hfile, ?_⟩
      rw [load_of_ne_missing hmissing, ofFile_of_holds hfile hfit]
      rfl
    · exact .inr hfails

/-- The settings are those of the environment, or else those of the file, or else the defaults, each
for itself.  They cannot be had just if there is a file that cannot be used, and without a file they
are those of the environment alone. -/
theorem load_precedence (e : Environment) (file : SettingsFile) :
  (∀ s, load e file = .ok s
      ↔ (∀ error, ¬file.Fails error)
        ∧ Setting.format.Prevails e file s.format
        ∧ Setting.defaultTimezone.Prevails e file s.defaultTimezone
        ∧ Setting.stopOnInvalid.Prevails e file s.stopOnInvalid
        ∧ Setting.maxLineSize.Prevails e file s.maxLineSize)
    ∧ (∀ error, load e file = .error error ↔ file.Fails error)
    ∧ load e .missing = .ok (ofEnvironment e)
  := by
  refine ⟨fun s => ?_, fun error => ?_, congrArg Except.ok (override_override e {})⟩
  · obtain ⟨base, hbase, hload⟩ | ⟨error, hfails⟩ := load_eq_override_or_fails e file
    · have hfine : ∀ error, ¬file.Fails error := by
        intro error hfails
        cases hload.symm.trans (load_of_fails hfails e)
      rw [hload, Except.ok.injEq, override_eq_iff hbase]
      exact (and_iff_right hfine).symm
    · rw [load_of_fails hfails e]
      constructor
      · rintro ⟨⟩
      · rintro ⟨hfine, -⟩
        exact absurd hfails (hfine error)
  · constructor
    · intro h
      obtain ⟨base, -, hload⟩ | ⟨error', hfails⟩ := load_eq_override_or_fails e file
      · cases hload.symm.trans h
      · cases (load_of_fails hfails e).symm.trans h
        exact hfails
    · exact fun hfails => load_of_fails hfails e

example :
  load { stopOnInvalid := some (encode "maybe"), maxLineSize := some (encode "+80") }
      (.contents (encode "stop_on_invalid_record = true"))
    = .ok { stopOnInvalid := true, maxLineSize := 80 }
  := by
  decide +kernel

end Settings

end LogFormat
