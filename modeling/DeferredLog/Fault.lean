import DeferredLog.FormatString.Basic
import DeferredLog.Json.Basic
import DeferredLog.Text.Utf8

/-!
# Faults

What can go wrong while a frame is decoded or shown. A starved decoder only needs more bytes; a
decoding fault says that the bytes, or the formats they refer to, cannot be right. `Fault.kind` groups
the causes and `Fault.message` words them.
-/

namespace DeferredLog

/-! ## Causes -/

/-- Bytes that are no value of the expected type. -/
inductive ValueFault where
  /-- A number of more than ten bytes. -/
  | longNumber
  | badBool (byte : Nat)
  | badChar (code : Nat)
  | badText (fault : Text.Utf8.Fault)
  | longSlice (count : Nat)
  | tooDeep (limit : Nat)
  deriving DecidableEq, Repr

/-- The greatest number of bytes that a variable-length number takes. -/
def maxNumberBytes : Nat := 10

/-- The wording of a value fault. -/
def ValueFault.message : ValueFault → String
  | longNumber => s!"LEB128 value longer than {maxNumberBytes} bytes"
  | badBool byte => s!"invalid bool value 0x{Text.hexPadded 2 byte}"
  | badChar code => s!"invalid char code point 0x{Text.hex code}"
  | badText fault => s!"invalid UTF-8 in string argument: {fault.message}"
  | longSlice count => s!"format slice of {count} elements"
  | tooDeep limit => s!"values nested deeper than {limit} levels"

/-- Metadata in place of a format text that cannot be read as one. -/
inductive NoFormat where
  /-- A scalar, or a list that holds something other than texts. -/
  | notText
  /-- A list that holds a lone brace. -/
  | braceItem
  /-- An object with members. -/
  | members
  deriving DecidableEq, Repr

/-- The wording of what stands in place of a format text. -/
def NoFormat.message : NoFormat → String
  | notText => "format is not a text"
  | braceItem => "format is a list with a brace in it"
  | members => "format is an object"

/-- Values that cannot be shown. -/
inductive DisplayFault where
  /-- A rounding of a single-precision number lies beyond the largest one. -/
  | floatRange
  /-- Metadata that is not a text. -/
  | notText
  | missingArgument (position : Nat)
  /-- A bit field under a directive without a bit range. -/
  | noBitRange
  /-- A bit range whose ends are out of order or negative. -/
  | badBitRange
  deriving DecidableEq, Repr

/-- The wording of a display fault. -/
def DisplayFault.message : DisplayFault → String
  | floatRange => "float too large to pack with f format"
  | notText => "text expected"
  | missingArgument position => s!"no argument at position {position}"
  | noBitRange => "directive has no bit range"
  | badBitRange => "negative shift count"

/-- Why a frame cannot be decoded or shown. -/
inductive Fault where
  | starved (missing : Nat)
  | unknownIndex (index : Int)
  /-- The entry has no level. -/
  | notLogStatement (index : Nat) (format : Json)
  | malformedFormat (index : Nat) (error : FormatError)
  | nestsUnknown (index target : Nat)
  /-- `path` leads from the entry first asked for to `index`, which is on it already. -/
  | cyclic (index : Nat) (path : List Nat)
  | noFormat (cause : NoFormat)
  | value (cause : ValueFault)
  | display (cause : DisplayFault)

namespace Fault

/-! ## Kinds and wording -/

/-- Groups of causes that a caller treats alike. -/
inductive Kind where
  | starved
  | unknownIndex
  | malformedDirective
  | cyclicNesting
  | malformedValue
  | noFormat (cause : NoFormat)
  | display (cause : DisplayFault)
  deriving DecidableEq, Repr

/-- The group of a cause. -/
def kind : Fault → Kind
  | starved _ => .starved
  | unknownIndex _ | notLogStatement .. => .unknownIndex
  | malformedFormat .. | nestsUnknown .. => .malformedDirective
  | cyclic .. => .cyclicNesting
  | value _ => .malformedValue
  | noFormat cause => .noFormat cause
  | display cause => .display cause

/-- Whether the stream cannot be decoded from here on, however many bytes follow. -/
def isDecodingFault (f : Fault) : Bool :=
  match f.kind with
  | .unknownIndex | .malformedDirective | .cyclicNesting | .malformedValue => true
  | .starved | .noFormat _ | .display _ => false

/-- The wording of a cause. -/
def message : Fault → String
  | starved missing => s!"{missing} more byte(s) needed"
  | unknownIndex index => s!"index {index} is not in the table"
  | notLogStatement index format => s!"index {index} ({format.literal}) is not a log statement"
  | malformedFormat index error => s!"index {index}: {error.message}"
  | nestsUnknown index target => s!"index {index} nests unknown index {target}"
  | cyclic index path =>
    let steps := " -> ".intercalate ((path ++ [index]).map toString)
    s!"index {index} nests itself via {steps}"
  | noFormat cause => cause.message
  | value cause => cause.message
  | display cause => cause.message

/-- Raises a fault that a plain computation reports. -/
def lift {m : Type → Type} [Monad m] [MonadExceptOf Fault m] {α : Type} :
    Except Fault α → m α
  | .ok a => pure a
  | .error e => throwThe Fault e

end Fault

end DeferredLog
