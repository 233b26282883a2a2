import DeferredLog.Check.Firmware

/-!
# The checking command

The command takes the path of an image and prints the report on it, if there is anything to report.
What was reported on the way goes to the error stream: warnings always, the rest on demand.
-/

namespace DeferredLog

/-- What the command is asked to do. -/
structure Command where
  path : String
  verbose : Bool
  deriving DecidableEq, Repr

/-- What the command leaves behind. -/
structure Outcome where
  exitCode : Nat
  output : String
  errors : String
  deriving DecidableEq, Repr

namespace Command

/-- How the command is to be called. -/
def usage : String := "usage: check [-v | --verbose] ELF_PATH"

/-- Whether an argument asks for all records. -/
def isVerboseFlag (argument : String) : Bool := argument = "-v" || argument = "--verbose"

/-- Reads the arguments. -/
def parse? (arguments : List String) : Option Command :=
  match arguments.filter (!isVerboseFlag ·) with
  | [path] => some ⟨path, arguments.any isVerboseFlag⟩
  | _ => none

/-- The least severity that is shown. -/
def threshold (c : Command) : Log.Severity := if c.verbose then .debug else .warning

/-- Whether a record is shown. -/
def shows (c : Command) (r : Log.Record) : Bool := c.threshold.number ≤ r.severity.number

/-- Text of one line each. -/
def lines (texts : List String) : String := "".intercalate (texts.map (· ++ "\n"))

/-- What the command leaves behind after a check. -/
def outcome (c : Command) (found : Inspection) : Outcome :=
  { exitCode := if found.report.isEmpty then 0 else 1
    output := if found.report.isEmpty then "" else lines [found.report]
    errors := lines ((found.records.filter c.shows).filterMap (·.line?)) }

/-- Runs the command on the bytes of its file. -/
def run (c : Command) (bytes : List UInt8) : Except InspectionFault Outcome :=
  (Image.inspectElf bytes c.path).map c.outcome

end Command

end DeferredLog
