import Waveform.Demo

/-!
# The demonstration on the command line

The first argument, if there is one, names the settings file.  The report goes to standard error.
-/

open Waveform

/-- The bytes of a file, if it can be read. -/
def readSettings (name : String) : IO (Option ByteArray) :=
  try
    return some (← IO.FS.readBinFile name)
  catch _ =>
    return none

/-- Runs the demonstration and prints its report. -/
def main (args : List String) : IO UInt32 := do
  let source ← match args with
    | [] => pure Demo.SettingsSource.builtin
    | name :: _ => pure (Demo.SettingsSource.file name (← readSettings name))
  let report := Demo.run source
  for line in report.lines do
    IO.eprintln line
  return report.exitCode.toUInt32
