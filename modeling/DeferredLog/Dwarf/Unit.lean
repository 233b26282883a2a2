import DeferredLog.Dwarf.Entry
import DeferredLog.Dwarf.LineTable

/-!
# Units of debug information

A unit is a tree of entries, written in the order in which a reader meets them: each entry before those
below it, and an empty entry after the last of them. Which attributes an entry has and how they are
written stands in a table of abbreviations, which units may share.
-/

namespace DeferredLog.Dwarf

open Reading

/-! ## Abbreviations -/

/-- What entries of one kind look like. -/
structure Abbreviation where
  code : Nat
  tag : Tag
  hasChildren : Bool
  attributes : List (AttributeName × Form)
  deriving DecidableEq, Repr

/-- An attribute of an abbreviation, or the end of the attributes. -/
def attributeFormat : Reading (Option (AttributeName × Form)) := do
  let key ← unsigned
  let form ← unsigned
  if key = 0 ∧ form = 0 then pure none
  else do
    let form ← Form.ofCode? form
    pure (some (.ofCode key, form))

/-- An abbreviation, or the end of the table. -/
def abbreviation : Reading (Option Abbreviation) := do
  let code ← unsigned
  if code = 0 then pure none
  else do
    let tag ← Tag.ofCode <$> unsigned
    let children ← byte
    let attributes ← untilNone attributeFormat
    pure (some ⟨code, tag, children ≠ 0, attributes⟩)

/-! ## Entries -/

/-- The attributes of an entry. -/
def attributes (e : Encoding) (texts : Texts) :
    List (AttributeName × Form) → Reading (List Attribute)
  | [] => pure []
  | (key, form) :: formats => do
    let value ← form.value e texts
    let others ← attributes e texts formats
    pure (⟨key, form, value⟩ :: others)

/-- The entries that follow below `ancestors`, at most `limit` of them; a unit ends with its first
entry and those below it. -/
def entriesBelow (e : Encoding) (texts : Texts) (abbreviations : List Abbreviation) :
    Nat → List Entry → Reading (List NestedEntry)
  | 0, _ => failure
  | limit + 1, ancestors => do
    let code ← unsigned
    if code = 0 then
      match ancestors with
      | _ :: outer :: outers => entriesBelow e texts abbreviations limit (outer :: outers)
      | _ => pure []
    else do
      let kind ← abbreviations.find? (·.code = code)
      let entry := ⟨kind.tag, ← attributes e texts kind.attributes⟩
      let others ←
        if kind.hasChildren then entriesBelow e texts abbreviations limit (entry :: ancestors)
        else if ancestors.isEmpty then pure []
        else entriesBelow e texts abbreviations limit ancestors
      pure (⟨entry, ancestors⟩ :: others)

/-! ## Units -/

/-- The parts of a file that hold debug information. -/
structure DebugParts where
  order : ByteOrder
  info : List UInt8
  abbreviations : List UInt8
  lines : List UInt8
  texts : Texts

/-- A unit: the directory it was compiled in, its files, and its entries. It need not have files, but if
it refers to some, it has to do so by a number. -/
structure CompileUnit where
  encoding : Encoding
  directory : Option String
  lines : Except PathFault (Option LineTable)
  entries : List NestedEntry
  deriving Repr

/-- The header of a unit: where its abbreviations start, and the size of its addresses. From version 5
on it also has a unit type. -/
def unitHeader (order : ByteOrder) : Reading (Nat × Nat) := do
  let version ← number order 2
  if version ≥ 5 then do
    let _unitType ← byte
    let addressSize ← byte
    let abbreviations ← number order offsetSize
    pure (abbreviations, addressSize)
  else do
    let abbreviations ← number order offsetSize
    let addressSize ← byte
    pure (abbreviations, addressSize)

namespace DebugParts

/-- The line table at an offset. -/
def lineTable? (p : DebugParts) (e : Encoding) (offset : Nat) : Option LineTable :=
  (LineTable.header e p.texts).value? (p.lines.drop offset)

/-- The line table that a unit refers to. -/
def linesOf (p : DebugParts) (e : Encoding) : Option Value → Except PathFault (Option LineTable)
  | none => .ok none
  | some reference =>
    match reference.number? with
    | some offset => .ok (p.lineTable? e offset)
    | none => .error .notNumber

/-- The unit of some entries, of which the first describes the unit itself. -/
def unitOf (p : DebugParts) (e : Encoding) (entries : List NestedEntry) : CompileUnit :=
  let top := entries.head?.map (·.entry)
  { encoding := e
    directory := top.bind (·.text? .compilationDirectory)
    lines := p.linesOf e (top.bind (·.value? .lineProgram))
    entries := entries }

/-- A unit behind its length. -/
def unitBody (p : DebugParts) : Reading CompileUnit := do
  let (offset, addressSize) ← unitHeader p.order
  let table ← (untilNone abbreviation).value? (p.abbreviations.drop offset)
  let e : Encoding := ⟨p.order, addressSize⟩
  fun input => do
    let (entries, rest) ← entriesBelow e p.texts table (input.length + 1) [] input
    pure (p.unitOf e entries, rest)

/-- A unit. -/
def compileUnit (p : DebugParts) : Reading CompileUnit := do
  let length ← number p.order offsetSize
  let body ← bytes length
  p.unitBody.value? body

/-- All units; debug information that cannot be read has none. -/
def units (p : DebugParts) : List CompileUnit := (p.compileUnit.all? p.info).getD []

end DebugParts

end DeferredLog.Dwarf
