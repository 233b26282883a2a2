import DeferredLog.Bytes.Reading

/-!
# Headers of ELF files

An ELF file says in its first bytes how its numbers are written: in which order their bytes come, and
whether addresses, offsets and sizes are words of four or of eight bytes. The file header tells where
the section headers are, and a section header where the bytes of its section are.
-/

namespace DeferredLog.Elf

open Reading

/-- How the numbers of a file are written. -/
structure Layout where
  order : ByteOrder
  wordSize : Nat
  deriving DecidableEq, Repr

/-- A number of `size` bytes. -/
def Layout.number (l : Layout) (size : Nat) : Reading Nat := Reading.number l.order size

/-- An address, an offset or a size. -/
def Layout.word (l : Layout) : Reading Nat := l.number l.wordSize

/-- Whether words have eight bytes. -/
def Layout.isWide (l : Layout) : Bool := l.wordSize = 8

/-- The bytes that every ELF file starts with. -/
def magic : List UInt8 := [0x7f, 0x45, 0x4c, 0x46]

/-- The word size of a file class. -/
def wordSize? : Nat → Option Nat
  | 1 => some 4
  | 2 => some 8
  | _ => none

/-- The order of a data encoding. -/
def order? : Nat → Option ByteOrder
  | 1 => some .little
  | 2 => some .big
  | _ => none

/-- The identification behind the magic bytes. -/
def layout : Reading Layout := do
  let wordSize ← wordSize? (← byte)
  let order ← order? (← byte)
  let _ ← bytes 10
  pure ⟨order, wordSize⟩

/-! ## The file header -/

/-- Where the section headers are, and which section holds the names of the sections. -/
structure Header where
  layout : Layout
  tableOffset : Nat
  entrySize : Nat
  count : Nat
  nameIndex : Nat
  deriving DecidableEq, Repr

/-- The file header behind the magic bytes. A file whose section headers are nowhere has none. -/
def header : Reading Header := do
  let l ← layout
  let _kind ← l.number 2
  let _machine ← l.number 2
  let _version ← l.number 4
  let _entryPoint ← l.word
  let _segmentOffset ← l.word
  let tableOffset ← l.word
  let _flags ← l.number 4
  let _headerSize ← l.number 2
  let _segmentEntrySize ← l.number 2
  let _segmentCount ← l.number 2
  let entrySize ← l.number 2
  let count ← l.number 2
  let nameIndex ← l.number 2
  pure ⟨l, tableOffset, entrySize, if tableOffset = 0 then 0 else count, nameIndex⟩

/-! ## Section headers -/

/-- What a section holds, as far as it matters here. -/
inductive SectionKind where
  | symbols
  /-- Zeros, which take no room in the file. -/
  | zeros
  | other
  deriving DecidableEq, Repr

/-- The kind of a section type; a file may have further symbol tables for its linker at run time. -/
def SectionKind.ofCode : Nat → SectionKind
  | 2 | 11 | 0x6ffffff3 => symbols
  | 8 => zeros
  | _ => other

/-- A section header. `link` is the index of an associated section: that of the names, for symbols. -/
structure SectionHeader where
  nameOffset : Nat
  kind : SectionKind
  offset : Nat
  size : Nat
  link : Nat
  entrySize : Nat
  deriving DecidableEq, Repr

/-- A section header. -/
def sectionHeader (l : Layout) : Reading SectionHeader := do
  let nameOffset ← l.number 4
  let kind ← SectionKind.ofCode <$> l.number 4
  let _flags ← l.word
  let _address ← l.word
  let offset ← l.word
  let size ← l.word
  let link ← l.number 4
  let _info ← l.number 4
  let _alignment ← l.word
  let entrySize ← l.word
  pure ⟨nameOffset, kind, offset, size, link, entrySize⟩

/-- The bytes of a section, cut out of those of the file. -/
def SectionHeader.data (h : SectionHeader) (file : List UInt8) : List UInt8 :=
  match h.kind with
  | .zeros => List.replicate h.size 0
  | _ => (file.drop h.offset).take h.size

end DeferredLog.Elf
