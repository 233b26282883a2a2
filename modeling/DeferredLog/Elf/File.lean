import DeferredLog.Bytes.StringTable
import DeferredLog.Elf.Header
import DeferredLog.Text.Utf8

/-!
# ELF files

An ELF file as the list of its sections, each with its name and its bytes. Of several sections with one
name the last is found.
-/

namespace DeferredLog.Elf

/-- Why some bytes are no ELF file. -/
inductive Fault where
  | noMagic
  | malformed
  deriving DecidableEq, Repr

/-- The wording of a fault. -/
def Fault.message : Fault → String
  | noMagic => "not an ELF file"
  | malformed => "malformed ELF file"

/-- A part of a file. -/
structure Part where
  name : String
  header : SectionHeader
  data : List UInt8
  deriving DecidableEq, Repr

/-- An ELF file. -/
structure File where
  layout : Layout
  parts : List Part
  deriving DecidableEq, Repr

/-- The text at an offset of a table of names; empty if there is none. -/
def nameAt (names : StringTable) (offset : Nat) : String :=
  match names.get? offset with
  | some bytes => Text.Utf8.decodeLossy bytes
  | none => ""

namespace File

/-- The headers of all sections. -/
def headers? (h : Header) (bytes : List UInt8) : Option (List SectionHeader) :=
  (List.range h.count).mapM fun i =>
    (sectionHeader h.layout).value? (bytes.drop (h.tableOffset + i * h.entrySize))

/-- The names of all sections. -/
def names (h : Header) (headers : List SectionHeader) (bytes : List UInt8) : StringTable :=
  match headers[h.nameIndex]? with
  | some table => .ofBytes (table.data bytes)
  | none => .ofBytes []

/-- The file that has a header. -/
def ofHeader? (h : Header) (bytes : List UInt8) : Option File := do
  let headers ← headers? h bytes
  let table := names h headers bytes
  pure ⟨h.layout, headers.map fun s => ⟨nameAt table s.nameOffset, s, s.data bytes⟩⟩

/-- Reads a file. -/
def parse (bytes : List UInt8) : Except Fault File :=
  if bytes.take magic.length ≠ magic then .error .noMagic
  else
    match (header.value? (bytes.drop magic.length)).bind (ofHeader? · bytes) with
    | some file => .ok file
    | none => .error .malformed

/-- The last section with a name. -/
def part? (f : File) (name : String) : Option Part := (f.parts.filter (·.name = name)).getLast?

/-- The bytes of a section; empty if there is none. -/
def data (f : File) (name : String) : List UInt8 :=
  match f.part? name with
  | some part => part.data
  | none => []

end File

end DeferredLog.Elf
