import DeferredLog.Dwarf.Expression
import DeferredLog.Dwarf.Unit
import DeferredLog.Metadata.Image
import DeferredLog.Text.Quoted

/-!
# Log statements in debug information

Every log statement leaves a variable whose linkage name is the name of the statement's symbol and a
disambiguator behind an `@`, and whose address is that of the symbol. Its declaration is the place of
the statement. A variable that says less is no statement; one whose file cannot be looked up is a fault.
-/

namespace DeferredLog.Dwarf

/-- The name of the variables that log statements leave. -/
def statementVariable : String := "DEFMT_LOG_STATEMENT"

/-- What separates the name of a symbol from the disambiguator. -/
def disambiguatorMark : Char := '@'

/-- A linkage name without its disambiguator. -/
def symbolName (linkageName : String) : String :=
  String.ofList (linkageName.toList.takeWhile (· ≠ disambiguatorMark))

/-- The line that a value states. -/
def Value.line : Value → SourceLine
  | number n => .number n
  | flag => .flag
  | text bytes => .other (Text.quotedBytes bytes)
  | block bytes => .other (blockText bytes)

/-- The path of a file that is named by a value. -/
def LineTable.namedPath? (t : LineTable) (compilation : Option String) (file : Value) :
    Except PathFault (Option String) :=
  match file.number? with
  | some index => t.path? compilation index
  | none => .error .notNumber

namespace CompileUnit

/-- The statement of an entry, if the entry describes a variable of that name completely; `lines` lists
the files of the unit. -/
def statement? (u : CompileUnit) (lines : LineTable) (variableName : String) (e : NestedEntry) :
    Option (Except PathFault StatementLocation) := do
  guard (e.entry.tag = .variableEntry ∧ e.entry.text? .name = some variableName)
  let linkageName ← e.entry.text? .linkageName
  let file ← e.entry.value? .declarationFile
  let line ← e.entry.value? .declarationLine
  let location ← e.entry.attribute? .location
  let address ← locationAddress? u.encoding location.form location.value
  match lines.namedPath? u.directory file with
  | .ok path =>
    path.map fun path =>
      .ok ⟨symbolName linkageName, address, ⟨"::".intercalate e.namespaces, path, some line.line⟩⟩
  | .error fault => some (.error fault)

/-- The statements of a unit, and the faults among them; a unit without files has none. -/
def statements (u : CompileUnit) (variableName : String) : List (Except PathFault StatementLocation) :=
  match u.lines with
  | .ok (some lines) => u.entries.filterMap (u.statement? lines variableName)
  | .ok none => []
  | .error fault => [.error fault]

end CompileUnit

end DeferredLog.Dwarf
