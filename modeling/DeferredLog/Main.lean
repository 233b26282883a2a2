import DeferredLog.Check.Command

/-! The command line: checks the format strings of a firmware image. -/

namespace DeferredLog

/-- Writes what a command leaves behind. -/
def Outcome.write (o : Outcome) : IO UInt32 := do
  IO.eprint o.errors
  IO.print o.output
  pure o.exitCode.toUInt32

/-- Reads the image and runs a command on it. -/
def Command.execute (c : Command) : IO UInt32 := do
  let bytes ← IO.FS.readBinFile c.path
  match c.run bytes.toList with
  | .ok outcome => outcome.write
  | .error fault => do
    IO.eprintln fault.message
    pure 1

end DeferredLog

/-- Exits with 1 if there is something to report, and with 2 if the arguments make no sense. -/
def main (arguments : List String) : IO UInt32 := do
  match DeferredLog.Command.parse? arguments with
  | some command => command.execute
  | none => do
    IO.eprintln DeferredLog.Command.usage
    pure 2
