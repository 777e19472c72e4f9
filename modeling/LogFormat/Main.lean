import LogFormat.Settings.Load
import LogFormat.Stream.Run

/-!
# The command

Reads log lines from the standard input and writes one JSON object for each line that
has the configured format to the standard output.  Records are written as their lines
come in, so those before an error are kept.
-/

namespace LogFormat.Command

/-- The variables of the environment that make settings. -/
def environment : IO Environment := do
  let get (name : String) : IO (Option Bytes) := return (← IO.getEnv name).map encode
  return ⟨← get "ACCESSLOG_FORMAT", ← get "ACCESSLOG_DEFAULT_TIMEZONE",
    ← get "ACCESSLOG_STOP_ON_INVALID", ← get "ACCESSLOG_MAX_LINE_SIZE"⟩

/-- The settings file under the given name. -/
def settingsFile (name : String) : IO SettingsFile := do
  try
    return .contents (← IO.FS.readBinFile name).data.toList
  catch
    | .noFileOrDirectory _ _ _ => return .missing
    | _ => return .unreadable

/-- Takes what comes in through the extractor; `pending` is the unfinished line so far. -/
partial def pump (x : Extractor) (stop : Bool) (input output : IO.FS.Stream)
    (pending : Bytes) (p : Progress) : IO (Except RunError Progress) := do
  let chunk ← input.read 65536
  let bytes := pending ++ chunk.data.toList
  let lines := if chunk.isEmpty then Input.lines ⟨bytes, none⟩ else finishedLines bytes
  let (result, written) := p.steps x stop {} lines
  output.write written.written
  match result with
  | .error error => return .error error
  | .ok p =>
    if chunk.isEmpty then return .ok p
    else pump x stop input output (unfinishedLine bytes) p

/-- What is said about a run that cannot start. -/
def bootMessage : BootError → String
  | .load .io => "the settings file cannot be read"
  | .load .toml => "the settings file is not valid"
  | .invalid fault => fault.message
  | .compile fault => fault.message

end LogFormat.Command

open LogFormat in
/-- Runs with the settings of the file that the environment names, and of the environment
itself.  The exit code is 1 if the run cannot start or does not come to its end. -/
def main : IO UInt32 := do
  let name := (← IO.getEnv "ACCESSLOG_CONFIG_FILE").getD "/etc/accesslog/parser.toml"
  match boot (← Command.environment) (← Command.settingsFile name) with
  | .error error =>
    IO.eprintln s!"Error: {Command.bootMessage error}"
    return 1
  | .ok (settings, format) =>
    let output ← IO.getStdout
    let (x, p) := Progress.start format settings.maxLineSize
    match ← Command.pump x settings.stopOnInvalid (← IO.getStdin) output [] p with
    | .error error =>
      IO.eprintln s!"Error: {error.message}"
      return 1
    | .ok _ =>
      output.flush
      return 0
