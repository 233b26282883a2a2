import DeferredLog.Level
import DeferredLog.Text.Template

/-!
# Log records

What the library reports about its own work, as data: each operation that reports something returns its
records. `severityOf` is the place of a firmware log level among the severities.

A record has a plain text, or a template with the arguments to be filled in when its message is read. A
tag in front of a template is part of it, and so are the percent signs of the tag.
-/

namespace DeferredLog.Log

/-- Severity of a record. -/
inductive Severity where
  | trace | debug | info | warning | error
  deriving DecidableEq, Repr

/-- The name of a severity. -/
def Severity.name : Severity → String
  | trace => "TRACE"
  | debug => "DEBUG"
  | info => "INFO"
  | warning => "WARNING"
  | error => "ERROR"

/-- The number that thresholds are compared with. -/
def Severity.number : Severity → Nat
  | trace => 5
  | debug => 10
  | info => 20
  | warning => 30
  | error => 40

/-- The severity of a firmware log level. -/
def severityOf : Level → Severity
  | .trace => .trace
  | .debug => .debug
  | .info => .info
  | .warn => .warning
  | .error => .error

/-- The parts of the library that report. -/
inductive Source where
  | builder | image | stream
  deriving DecidableEq, Repr

/-- The name under which a part reports. -/
def Source.name : Source → String
  | builder => "defmt_decoder.builder"
  | image => "defmt_decoder.elf"
  | stream => "defmt_decoder.frame"

/-- A report; without arguments, `text` is no template. -/
structure Record where
  source : Source
  severity : Severity
  text : String
  arguments : List String
  deriving DecidableEq, Repr

/-- A text or a template under a tag. -/
def tagged (tag text : String) : String := s!"[{tag}] {text}"

namespace Record

/-- A report of a plain text. -/
def plain (source : Source) (severity : Severity) (text : String) : Record :=
  ⟨source, severity, text, []⟩

/-- The message of a record. -/
def message (r : Record) : Except Text.Template.Fault String :=
  if r.arguments.isEmpty then .ok r.text else Text.Template.fill r.text r.arguments

/-- The line that a console shows for a record; none if the record has no message. -/
def line? (r : Record) : Option String :=
  r.message.toOption.map fun message => s!"{r.severity.name}:{r.source.name}:{message}"

end Record

end DeferredLog.Log
