import DeferredLog.Frame.Basic
import DeferredLog.Log

/-!
# Frames as lines

A display line shows timestamp, level, message and place of a frame, and may be wrapped in the terminal
style of its level. `logRecord?` makes a record for a logger that has a threshold.
-/

namespace DeferredLog

/-! ## Terminal styles -/

/-- The escape sequence of a level's colour. -/
def Level.colour : Level → String
  | trace => "\x1b[1;30m"
  | debug => "\x1b[1;37m"
  | info => "\x1b[32m"
  | warn => "\x1b[33m"
  | error => "\x1b[31m"

/-- The escape sequence that starts a line; levels from `bold` on are in bold type. -/
def Level.style (level : Level) (bold : Option Level) : String :=
  match bold with
  | some b => if b.rank ≤ level.rank then level.colour ++ "\x1b[1m" else level.colour
  | none => level.colour

/-- The escape sequence that ends a styled line. -/
def styleReset : String := "\x1b[0m"

/-! ## Display lines -/

/-- The part of a path after its last slash. -/
def baseName (path : String) : String :=
  String.ofList (path.toList.reverse.takeWhile (· ≠ '/')).reverse

/-- How a line is displayed. -/
structure LineOptions where
  colour : Bool
  bold : Option Level
  showLocation : Bool
  deriving DecidableEq, Repr

/-- Plain lines with locations. -/
def LineOptions.default : LineOptions := ⟨false, none, true⟩

/-- The short form of a location. -/
def Location.shortText (l : Location) : String :=
  s!"({baseName l.file}:{l.lineText})"

/-- A text with spaces up to five characters. -/
def padFive (s : String) : String :=
  s ++ String.ofList (List.replicate (5 - s.length) ' ')

namespace Frame

section
variable {m : Type → Type} [Monad m] [MonadExceptOf Fault m]

/-- The display line of a frame. -/
def line (t : Table) (formats : Nat → m FormatString) (options : LineOptions) (frame : Frame) :
    m String := do
  let timestamp ← frame.timestampText t formats
  let message ← frame.message formats
  let place := if options.showLocation then frame.entry.location.map Location.shortText else none
  let parts := timestamp.toList ++ [padFive frame.level.lineName, message] ++ place.toList
  let line := " ".intercalate parts
  pure (if options.colour then frame.level.style options.bold ++ line ++ styleReset else line)

/-! ## Log records -/

/-- A frame as a record of the logger `logger`, with its place in the firmware's source. -/
structure LogRecord where
  logger : String
  severity : Log.Severity
  path : String
  line : Option SourceLine
  message : String
  timestamp : Option String
  deriving DecidableEq, Repr

/-- The path and line of a record; a frame without a location stands for the whole firmware. -/
def place (frame : Frame) : String × Option SourceLine :=
  match frame.entry.location with
  | some l => (l.file, l.line)
  | none => ("(firmware)", some (.number 0))

/-- The record of a frame for a logger, unless its severity is below the threshold. -/
def logRecord? (t : Table) (formats : Nat → m FormatString) (logger : String) (threshold : Int)
    (frame : Frame) : m (Option LogRecord) :=
  let severity := Log.severityOf frame.level
  if (severity.number : Int) < threshold then pure none
  else do
    let message ← frame.message formats
    let timestamp ← frame.timestampText t formats
    pure (some ⟨logger, severity, frame.place.1, frame.place.2, message, timestamp⟩)

end

end Frame

end DeferredLog
