import DeferredLog.Elf.File
import DeferredLog.Metadata.Image

/-!
# Symbols of ELF files

The symbol table has one entry for each symbol, with the offset of its name and the index of the section
that it is defined in. Index zero and the reserved indices stand for no section.
-/

namespace DeferredLog.Elf

open Reading

/-- The name of the symbol table. -/
def symbolTableName : String := ".symtab"

/-- An entry of the symbol table. -/
structure SymbolEntry where
  nameOffset : Nat
  address : Nat
  index : Nat
  deriving DecidableEq, Repr

/-- An entry with words of four bytes. -/
def narrowEntry (l : Layout) : Reading SymbolEntry := do
  let nameOffset ← l.number 4
  let address ← l.word
  let _size ← l.word
  let _info ← byte
  let _other ← byte
  let index ← l.number 2
  pure ⟨nameOffset, address, index⟩

/-- An entry with words of eight bytes, which stand at its end. -/
def wideEntry (l : Layout) : Reading SymbolEntry := do
  let nameOffset ← l.number 4
  let _info ← byte
  let _other ← byte
  let index ← l.number 2
  let address ← l.word
  let _size ← l.word
  pure ⟨nameOffset, address, index⟩

/-- An entry that takes `size` bytes. -/
def symbolEntry (l : Layout) (size : Nat) : Reading SymbolEntry := do
  let entry ← bytes size
  (if l.isWide then wideEntry l else narrowEntry l).value? entry

namespace File

/-- The name of the section with an index. -/
def partName? (f : File) (index : Nat) : Option String :=
  if index = 0 then none else f.parts[index]?.map (·.name)

/-- The symbol of an entry. -/
def symbol (f : File) (names : StringTable) (e : SymbolEntry) : ImageSymbol :=
  ⟨nameAt names e.nameOffset, e.address, f.partName? e.index⟩

/-- The symbols of a symbol table. -/
def symbolsOf (f : File) (table : Part) : List ImageSymbol :=
  let size := table.header.entrySize
  let names := StringTable.ofBytes ((f.parts[table.header.link]?.map (·.data)).getD [])
  let entries := ((symbolEntry f.layout size).times (table.data.length / size)).value? table.data
  (entries.getD []).map (f.symbol names)

/-- The symbols of a file, unless it has no symbol table. -/
def symbols? (f : File) : Option (List ImageSymbol) :=
  match f.part? symbolTableName with
  | some table => if table.header.kind = .symbols then some (f.symbolsOf table) else none
  | none => none

end File

end DeferredLog.Elf
