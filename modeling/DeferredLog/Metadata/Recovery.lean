import DeferredLog.Metadata.Image
import DeferredLog.Version.Compatibility

/-!
# Recovering a table step by step

What has been recovered so far is a `Recovery`: entries in the order they were found, the version
marker, and the index of the timestamp format. It outlives a fault, and so do the records.
-/

namespace DeferredLog

/-- Why no table can be recovered from an image. -/
inductive RecoveryFault where
  | noSection
  | noVersion
  | severalVersions (markers : List String)
  | version (cause : VersionFault)
  | incompleteMarkers (level : Level)
  | secondTimestamp
  | locationCollision (address : Nat) (first second : Location)
  | unknownHeaderTag (field : String)
  | noRecordKeys (header : String)
  | malformedKey (key : String)
  /-- A record key that starts with a digit or occurs twice. -/
  | unusableKey (key : String)
  | recordNotText (offset : Nat) (fault : Text.Utf8.Fault)
  | malformedRecord (offset : Nat) (text : String)
  | recordLevel (offset : Nat) (message : String)
  /-- A line number of digits that have no decimal value. -/
  | lineNumber (text : String)
  /-- Metadata whose tag is not a text. -/
  | tagNotText
  /-- Debug information in which a file cannot be looked up. -/
  | location (cause : Dwarf.PathFault)
  | table (cause : TableFault)

namespace RecoveryFault

/-- The wording of a fault. -/
def message : RecoveryFault → String
  | noSection =>
    s!"neither a {Image.symbolSection} nor a {Image.recordSection} section was found"
  | noVersion => "wire format version marker not found"
  | severalVersions markers =>
    let shown := ", ".intercalate markers
    s!"multiple wire format versions in use: {shown} (only one is supported)"
  | version cause => cause.message
  | incompleteMarkers level => s!"`_defmt_{level.tagName}_*` marker symbols are incomplete"
  | secondTimestamp => "more than one timestamp format declared"
  | locationCollision address first second =>
    s!"location collision for index 0x{Text.hexPadded 8 address} ({first.text} and {second.text})"
  | unknownHeaderTag field => s!"Unknown header tag '{field}'"
  | noRecordKeys header => s!"header does not describe the record keys: '{header}'"
  | malformedKey key => s!"malformed record key '{key}'"
  | unusableKey key => s!"unusable record key '{key}'"
  | recordNotText offset fault => s!"record at offset {offset} is not UTF-8: {fault.message}"
  | malformedRecord offset text => s!"malformed record at offset {offset}: '{text}'"
  | recordLevel offset message => s!"record at offset {offset}: {message}"
  | lineNumber text => s!"invalid literal for int() with base 10: {Text.quoted text}"
  | tagNotText => "tag is not a text"
  | location cause => cause.message
  | table cause => cause.message

/-- Groups of causes that a caller treats alike. -/
inductive Kind where
  /-- The image holds no usable table. -/
  | noTable
  /-- The image is for another wire format. -/
  | incompatible
  | duplicateIndex
  | unknownTimestamp
  | badSupported
  | unusableKey
  | lineNumber
  | tagNotText
  | location
  deriving DecidableEq, Repr

/-- The group of a cause. -/
def kind : RecoveryFault → Kind
  | version (.badSupported _) => .badSupported
  | severalVersions _ | version _ => .incompatible
  | table (.duplicateIndex ..) => .duplicateIndex
  | table (.unknownTimestamp _) => .unknownTimestamp
  | unusableKey _ => .unusableKey
  | lineNumber _ => .lineNumber
  | tagNotText => .tagNotText
  | location _ => .location
  | noSection | noVersion | incompleteMarkers _ | secondTimestamp | locationCollision ..
  | unknownHeaderTag _ | noRecordKeys _ | malformedKey _ | recordNotText .. | malformedRecord ..
  | recordLevel .. => .noTable

/-- Whether a cause lies in the image as a whole and is reported as such; the others are accidents of a
single field. -/
def isReported (f : RecoveryFault) : Bool :=
  match f.kind with
  | .noTable | .incompatible | .duplicateIndex | .unknownTimestamp => true
  | .badSupported | .unusableKey | .lineNumber | .tagNotText | .location => false

end RecoveryFault

/-- What has been recovered so far. -/
structure Recovery where
  entries : List Entry
  version : Option String
  timestamp : Option Nat
  records : List Log.Record

/-- Nothing recovered. -/
def Recovery.empty : Recovery := ⟨[], none, none, []⟩

/-- Steps of a recovery. -/
abbrev Recovering (α : Type) := EStateM RecoveryFault Recovery α

namespace Recovering

/-- Gives up. -/
def fail {α : Type} (fault : RecoveryFault) : Recovering α := fun r => .error fault r

/-- Keeps records. -/
def report (records : List Log.Record) : Recovering Unit := fun r =>
  .ok () { r with records := r.records ++ records }

/-- Notes the version marker. -/
def noteVersion (version : String) : Recovering Unit := fun r =>
  .ok () { r with version := some version }

/-- The tag of the timestamp format. -/
def timestampTag : String := "defmt_timestamp"

/-- What tags of log statements start with. -/
def tagStart : String := "defmt_"

/-- Adds an entry; there may be one timestamp format. -/
def addEntry (e : Entry) : Recovering Unit := fun r =>
  if e.tag = timestampTag then
    if r.timestamp.isSome then .error .secondTimestamp r
    else .ok () { r with entries := r.entries ++ [e], timestamp := some e.index }
  else .ok () { r with entries := r.entries ++ [e] }

/-- Adds entries that are made from sources one after the other. -/
def addEach {α : Type} (make : α → Except RecoveryFault Entry) : List α → Recovering Unit
  | [] => pure ()
  | a :: as =>
    match make a with
    | .error fault => fail fault
    | .ok e => do
      addEntry e
      addEach make as

end Recovering

end DeferredLog
