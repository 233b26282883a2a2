import DeferredLog.FormatString.ArgType
import DeferredLog.FormatString.Hint

/-!
# Format strings

A format string is literal text interleaved with directives, and it has one argument slot per
position. `FormatError` lists what can be wrong with one, `FormatError.message` how that is said.
-/

namespace DeferredLog

/-- A place where an argument is displayed. -/
structure Directive where
  position : Nat
  type : ArgType
  hint : Option Hint
  deriving DecidableEq

/-- A run of a format string. -/
inductive Fragment where
  | literal (text : String)
  | directive (d : Directive)
  deriving DecidableEq

/-- A format string taken apart: its runs in text order and one type per argument in wire order. -/
structure FormatString where
  fragments : List Fragment
  arguments : List ArgType
  deriving DecidableEq

namespace FormatString

/-- The directives in text order. -/
def directives (f : FormatString) : List Directive :=
  f.fragments.filterMap fun
    | .directive d => some d
    | .literal _ => none

/-- The entries that arguments fix, in wire order. -/
def nestedTargets (f : FormatString) : List Nat := f.arguments.filterMap ArgType.target?

end FormatString

/-! ## What can be wrong -/

/-- A violation of the directive grammar. -/
inductive FormatError where
  | unmatchedBrace (offset : Nat) (format : String)
  | unterminated (offset : Nat) (format : String)
  | malformedDirective (body : String)
  | unknownType (tag : String)
  | unknownHint (text : String)
  | emptyBitRange (tag : String)
  | wideBitRange (tag : String) (bits : Nat)
  /-- Two types that do not go together on one position. -/
  | conflict (position : Nat) (first second : String)
  /-- Bit ranges of different backing integers on one position. -/
  | backingConflict (position : Nat) (first second : String)
  | unusedArgument (position : Nat) (format : String)
  deriving DecidableEq, Repr

/-- The wording of an error. -/
def FormatError.message : FormatError → String
  | unmatchedBrace offset format => s!"unmatched '\x7d' at offset {offset} in '{format}'"
  | unterminated offset format => s!"unterminated directive at offset {offset} in '{format}'"
  | malformedDirective body => s!"malformed directive '\x7b{body}\x7d'"
  | unknownType tag => s!"unknown type tag '{tag}'"
  | unknownHint text => s!"unknown display hint '{text}'"
  | emptyBitRange tag => s!"bitfield range {tag}: high bit must be above low bit"
  | wideBitRange tag bits => s!"bitfield range {tag} exceeds the {bits}-bit backing integer"
  | conflict position first second => s!"argument {position} used as both {first} and {second}"
  | backingConflict position first second =>
    s!"argument {position} used as bitfields of {first} and {second}"
  | unusedArgument position format => s!"argument {position} is never used in '{format}'"

end DeferredLog
