import DeferredLog.Dwarf.Form
import DeferredLog.Text.Path

/-!
# Files and directories of a unit

The header of a line program lists the directories and the files that the unit was compiled from; the
program itself is not needed here. Until version 4 both lists count from one, and a file in the
directory number zero is relative to the directory of the compilation. From version 5 on they count
from zero, each list describes the fields of its entries first, and a header may have no list at all. A
number beyond the end of a list names nothing, but a list that a number refers to has to be there.
-/

namespace DeferredLog.Dwarf

open Reading

/-- A file, with the number of its directory. -/
structure FileName where
  name : List UInt8
  directory : Nat
  deriving DecidableEq, Repr

/-- The files and directories of a unit, where it lists any. -/
structure LineTable where
  version : Nat
  files : Option (List FileName)
  directories : Option (List (List UInt8))
  deriving DecidableEq, Repr

/-- Why the path of a file cannot be looked up. -/
inductive PathFault where
  /-- A file is named by its number, but there is no list of files. -/
  | noFiles
  /-- A directory is named by its number, but there is no list of directories. -/
  | noDirectories
  /-- What should name a file or a line program is not a number. -/
  | notNumber
  deriving DecidableEq, Repr

/-- The wording of a fault. -/
def PathFault.message : PathFault → String
  | noFiles => "the unit has no list of files"
  | noDirectories => "the unit has no list of directories"
  | notNumber => "a reference is not a number"

namespace LineTable

/-! ## Paths -/

/-- The number of the first file and of the first directory. -/
def base (t : LineTable) : Nat := if t.version ≥ 5 then 0 else 1

/-- The file with a number. -/
def file? (t : LineTable) (index : Int) : Except PathFault (Option FileName) :=
  if index < t.base then .ok none
  else
    match t.files with
    | some files => .ok files[(index - t.base).toNat]?
    | none => .error .noFiles

/-- The directory with a number; empty if there is none. -/
def directoryName (t : LineTable) (index : Nat) : Except PathFault String :=
  if index < t.base then .ok ""
  else
    match t.directories with
    | some directories => .ok ((directories[index - t.base]?.map Text.Utf8.decodeLossy).getD "")
    | none => .error .noDirectories

/-- The path of a file in a directory; a relative one is seen from the directory of the compilation, if
that is known. -/
def filePath (compilation : Option String) (directory name : String) : String :=
  let path := Text.Path.join directory name
  if Text.Path.isAbsolute path then path else Text.Path.join (compilation.getD "") path

/-- The path of the file with a number. -/
def path? (t : LineTable) (compilation : Option String) (index : Int) :
    Except PathFault (Option String) := do
  match ← t.file? index with
  | none => pure none
  | some file =>
    let directory ← t.directoryName file.directory
    pure (some (filePath compilation directory (Text.Utf8.decodeLossy file.name)))

/-! ## Until version 4 -/

/-- A directory, or the end of the directories. -/
def plainDirectory : Reading (Option (List UInt8)) := do
  let name ← text
  pure (if name.isEmpty then none else some name)

/-- A file, or the end of the files. -/
def plainFile : Reading (Option FileName) := do
  let name ← text
  if name.isEmpty then pure none
  else do
    let directory ← unsigned
    let _modified ← unsigned
    let _size ← unsigned
    pure (some ⟨name, directory⟩)

/-! ## From version 5 on -/

/-- What a field of an entry tells. -/
inductive Content where
  | path
  | directory
  | other
  deriving DecidableEq, Repr

/-- The content with a code. -/
def Content.ofCode : Nat → Content
  | 1 => path
  | 2 => directory
  | _ => other

/-- The description of a field. -/
def fieldFormat : Reading (Content × Form) := do
  let content ← Content.ofCode <$> unsigned
  let form ← Form.ofCode? (← unsigned)
  pure (content, form)

/-- The fields of an entry. -/
def fields (e : Encoding) (texts : Texts) : List (Content × Form) → Reading (List (Content × Value))
  | [] => pure []
  | (content, form) :: formats => do
    let value ← form.value e texts
    let others ← fields e texts formats
    pure ((content, value) :: others)

/-- The file that fields describe. -/
def fileOf? (described : List (Content × Value)) : Option FileName :=
  match described.lookup .path with
  | some (.text name) => some ⟨name, ((described.lookup .directory).bind Value.number?).getD 0⟩
  | _ => none

/-- A described list of directories or of files; one without entries counts as none. -/
def entries (e : Encoding) (texts : Texts) : Reading (Option (List FileName)) := do
  let formats ← fieldFormat.times (← byte)
  let described ← (fields e texts formats).times (← unsigned)
  let files ← (described.mapM fileOf? : Option (List FileName))
  pure (if files.isEmpty then none else some files)

/-! ## The header -/

/-- What stands in a header between its length and its lists. -/
def skipProgramSettings (version : Nat) : Reading Unit := do
  let _minimumLength ← byte
  let _operations ← bytes (if version ≥ 4 then 1 else 0)
  let _isStatement ← byte
  let _lineBase ← byte
  let _lineRange ← byte
  let opcodeBase ← byte
  let _operandCounts ← bytes (opcodeBase - 1)
  pure ()

/-- The lists of a header. -/
def lists (e : Encoding) (texts : Texts) (version : Nat) : Reading LineTable := do
  if version ≥ 5 then do
    let directories ← entries e texts
    let files ← entries e texts
    pure ⟨version, files, directories.map fun names => names.map (·.name)⟩
  else do
    let directories ← untilNone plainDirectory
    let files ← untilNone plainFile
    pure ⟨version, some files, some directories⟩

/-- The header of a line program. -/
def header (e : Encoding) (texts : Texts) : Reading LineTable := do
  let _length ← number e.order offsetSize
  let version ← number e.order 2
  let _addressSizes ← bytes (if version ≥ 5 then 2 else 0)
  let _headerLength ← number e.order offsetSize
  skipProgramSettings version
  lists e texts version

end LineTable

end DeferredLog.Dwarf
