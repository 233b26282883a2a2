import DeferredLog.Dwarf.LineTable
import DeferredLog.Log
import DeferredLog.Table.Basic

/-!
# Firmware images

What the recovery of a table needs to know of a firmware image: its symbols, the bytes of its sections,
and the source locations of log statements. Reading these may report something, so each comes with the
records of its reading; the reading of locations may also end early, by a fault that counts only if the
locations are asked for.
-/

namespace DeferredLog

/-- A symbol; `sectionName` is the name of the section that it is defined in. -/
structure ImageSymbol where
  name : String
  address : Nat
  sectionName : Option String
  deriving DecidableEq, Repr

/-- The location of the log statement at an address, under the linkage name of its variable. -/
structure StatementLocation where
  linkageName : String
  address : Nat
  location : Location
  deriving DecidableEq, Repr

/-- A firmware image; `locationFault` is what ended the reading of locations, if anything did. -/
structure Image where
  symbols : List ImageSymbol
  symbolRecords : List Log.Record
  sections : List (String × List UInt8)
  locations : List StatementLocation
  locationFault : Option Dwarf.PathFault
  locationRecords : List Log.Record
  deriving DecidableEq, Repr

namespace Image

/-- The section that holds format strings as symbols. -/
def symbolSection : String := ".defmt"

/-- The section that holds format strings as records. -/
def recordSection : String := ".defmt_strings"

/-- The bytes of a section. -/
def sectionData? (image : Image) (name : String) : Option (List UInt8) :=
  image.sections.lookup name

/-- Whether a symbol is defined in the section of format strings. -/
def isFormatSymbol (s : ImageSymbol) : Bool := s.sectionName = some symbolSection

end Image

end DeferredLog
