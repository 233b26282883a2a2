import DeferredLog.Dwarf.Statements
import DeferredLog.Elf.Symbols

/-!
# Images from ELF files

What an ELF file tells about log statements: its symbols, its sections, and the locations in its debug
information. A file that was stripped of its symbols or of its debug information is reported and is
otherwise an image like any other.
-/

namespace DeferredLog.Image

open Elf Dwarf

/-- The tag of reports on a file without a name. -/
def namelessTag : String := "ElfReader"

/-- The tag of reports on a file. -/
def readerTag (name : Option String) : String :=
  match name with
  | some text => if text.isEmpty then namelessTag else text
  | none => namelessTag

/-- A report on the reading of a file. -/
def readerRecord (tag : String) (severity : Log.Severity) (text : String) : Log.Record :=
  .plain .image severity (Log.tagged tag text)

/-- The report on a file without symbols. -/
def strippedRecord (tag : String) : Log.Record :=
  readerRecord tag .warning "No symbol table; was the image stripped?"

/-- The report on a file without debug information. -/
def noDebugRecord (tag : String) : Log.Record :=
  readerRecord tag .debug "No DWARF info; locations unavailable"

/-- The section of the units. -/
def debugSection : String := ".debug_info"

/-- The debug information of a file. -/
def debugParts (f : Elf.File) : DebugParts :=
  { order := f.layout.order
    info := f.data debugSection
    abbreviations := f.data ".debug_abbrev"
    lines := f.data ".debug_line"
    texts := ⟨.ofBytes (f.data ".debug_str"), .ofBytes (f.data ".debug_line_str")⟩ }

/-- What precedes the first fault, and that fault. -/
def untilFault {α ε : Type} : List (Except ε α) → List α × Option ε
  | [] => ([], none)
  | .error fault :: _ => ([], some fault)
  | .ok a :: rest =>
    let (found, fault) := untilFault rest
    (a :: found, fault)

/-- The locations of log statements, which leave variables named `variableName`, up to the first fault
among them, and that fault. -/
def fileLocations (f : Elf.File) (variableName : String) :
    List StatementLocation × Option PathFault :=
  untilFault ((debugParts f).units.flatMap (·.statements variableName))

/-- The image of a file. -/
def ofFile (f : Elf.File) (tag variableName : String) : Image :=
  { symbols := f.symbols?.getD []
    symbolRecords := if f.symbols?.isSome then [] else [strippedRecord tag]
    sections := (f.parts.map fun part => (part.name, part.data)).reverse
    locations := (fileLocations f variableName).1
    locationFault := (fileLocations f variableName).2
    locationRecords := if (f.part? debugSection).isSome then [] else [noDebugRecord tag] }

/-- The image of an ELF file. -/
def ofElf (bytes : List UInt8) (name : Option String) (variableName : String) :
    Except Elf.Fault Image :=
  (Elf.File.parse bytes).map (ofFile · (readerTag name) variableName)

end DeferredLog.Image
