/-!
# Log levels

The five levels of log statements, in increasing order, under the names that tags, markers and output
lines use.
-/

namespace DeferredLog

/-- Level of a log statement. -/
inductive Level where
  | trace | debug | info | warn | error
  deriving DecidableEq, Repr

namespace Level

/-- All levels in increasing order. -/
def all : List Level := [trace, debug, info, warn, error]

/-- The place of a level in the order. -/
def rank : Level → Nat
  | trace => 0
  | debug => 1
  | info => 2
  | warn => 3
  | error => 4

/-- The name in lower case, as in tags. -/
def tagName : Level → String
  | trace => "trace"
  | debug => "debug"
  | info => "info"
  | warn => "warn"
  | error => "error"

/-- The name with an initial capital. -/
def name : Level → String
  | trace => "Trace"
  | debug => "Debug"
  | info => "Info"
  | warn => "Warn"
  | error => "Error"

/-- The name in capitals, as in output lines. -/
def lineName : Level → String
  | trace => "TRACE"
  | debug => "DEBUG"
  | info => "INFO"
  | warn => "WARN"
  | error => "ERROR"

/-- The level with a given name in lower case. -/
def ofTagName? (name : String) : Option Level := all.find? fun l => l.tagName = name

/-- A name with an initial capital and all else in lower case; the capital of a dotless i is I. -/
def capitalized : List Char → List Char
  | [] => []
  | c :: cs => (if c = '\u0131' then 'I' else c.toUpper) :: cs.map Char.toLower

/-- The level with a given name in any letter case. -/
def ofName? (name : String) : Option Level :=
  all.find? fun l => l.name.toList = capitalized name.toList

/-- The wording for a name that no level has. -/
def unknownMessage (name : String) : String := s!"unknown log level '{name}'"

/-- The level that a name stands for: none for an empty name, and for any other one the level with that name
in any letter case. -/
def named (name : String) : Except String (Option Level) :=
  if name.isEmpty then .ok none
  else
    match ofName? name with
    | some level => .ok (some level)
    | none => .error (unknownMessage name)

end Level

end DeferredLog
