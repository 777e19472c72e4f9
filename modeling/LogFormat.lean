import LogFormat.Main
import LogFormat.Proofs.Directive.SubPatterns
import LogFormat.Proofs.Directive.Tiling
import LogFormat.Proofs.Format.Splicing
import LogFormat.Proofs.Format.Composition
import LogFormat.Proofs.Format.Compilation
import LogFormat.Proofs.Pattern.Chain
import LogFormat.Proofs.Format.Division
import LogFormat.Proofs.Record.Row
import LogFormat.Proofs.Stream.LineByLine
import LogFormat.Proofs.Text.Decimal
import LogFormat.Proofs.Calendar.Days
import LogFormat.Proofs.Time.Reading
import LogFormat.Proofs.Time.CommonLog
import LogFormat.Proofs.Text.Bytes
import LogFormat.Proofs.Directive.Words
import LogFormat.Proofs.Record.Conversion
import LogFormat.Proofs.Settings.NamedFormats
import LogFormat.Proofs.Text.Separators
import LogFormat.Proofs.Settings.Access
import LogFormat.Proofs.Settings.ReadBack
import LogFormat.Proofs.Pattern.Preference
import LogFormat.Proofs.Directive.Preferences
import LogFormat.Proofs.Format.Choice
import LogFormat.Proofs.Directive.Grammar
import LogFormat.Proofs.Directive.Scanning
import LogFormat.Proofs.Record.Calls
import LogFormat.Proofs.Text.Json
import LogFormat.Proofs.Calendar.Rfc3339
import LogFormat.Proofs.Format.ColumnNames
import LogFormat.Proofs.Stream.Completion
import LogFormat.Proofs.Record.Decoding
import LogFormat.Proofs.Stream.JsonLines
import LogFormat.Proofs.Stream.Framing
import LogFormat.Proofs.Stream.StopMode
import LogFormat.Proofs.Stream.BrokenOff
import LogFormat.Proofs.Record.History
import LogFormat.Proofs.Time.Slots
import LogFormat.Proofs.Time.Components
import LogFormat.Proofs.Time.Agreement
import LogFormat.Proofs.Time.LocalClock
import LogFormat.Proofs.Stream.CarriageReturns
import LogFormat.Proofs.Time.EpochSeconds
import LogFormat.Proofs.Time.Steps
import LogFormat.Proofs.Time.StatedOffset
import LogFormat.Proofs.Time.FirstInstant
import LogFormat.Proofs.Time.Samples
import LogFormat.Proofs.Time.StatedClock
import LogFormat.Proofs.Time.Readable
import LogFormat.Proofs.Time.Counts
import LogFormat.Proofs.Time.OffsetTexts
import LogFormat.Proofs.Time.Endings
import LogFormat.Proofs.Time.OtherOffsets
import LogFormat.Proofs.Time.StatedZone
import LogFormat.Proofs.Time.Writing
import LogFormat.Proofs.Record.Numbers
import LogFormat.Proofs.Format.Modifiers
import LogFormat.Proofs.Text.Blanks
import LogFormat.Proofs.Time.ZoneNames
import LogFormat.Proofs.Settings.Precedence
import LogFormat.Proofs.Format.Rebuilding
import LogFormat.Proofs.Record.NamedColumns
