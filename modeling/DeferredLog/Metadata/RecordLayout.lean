import DeferredLog.FormatString.Tag
import DeferredLog.Metadata.Recovery

/-!
# The record layout

The record section holds texts that end with NUL. The first is a header
`DEFMT=version,KEYS=key:…:key[,CRATE=crate]`; the keys name the fields of all further records, which are
separated by colons. Only the message may hold colons itself, and it holds no line feed. The offset of a
record is its index. Bytes behind the last NUL, and empty texts, are no records. A line number may have
any number of digits, which is an idealisation.
-/

namespace DeferredLog.RecordLayout

open Recovering

/-! ## The section -/

/-- The NUL-terminated runs of other bytes with their offsets; `offset` is that of the bytes given, and
`run` holds the current run in reverse. -/
def runs (offset : Nat) (run : List UInt8) : List UInt8 → List (Nat × List UInt8)
  | [] => []
  | b :: bs =>
    if b = 0 then
      if run.isEmpty then runs (offset + 1) [] bs
      else (offset - run.length, run.reverse) :: runs (offset + 1) [] bs
    else runs (offset + 1) (b :: run) bs

/-- The records: all runs but one at the very start, which is the header. -/
def records (data : List UInt8) : List (Nat × List UInt8) :=
  (runs 0 [] data).filter fun r => r.1 ≠ 0

/-- The bytes of the header; in a section without a NUL, all but the last one. -/
def headerBytes (data : List UInt8) : List UInt8 :=
  if data.contains 0 then data.takeWhile (· ≠ 0) else data.dropLast

/-! ## The header -/

/-- Splits a text at every occurrence of a character. -/
def splitAt (c : Char) : List Char → List (List Char)
  | [] => [[]]
  | d :: ds =>
    match splitAt c ds with
    | [] => []
    | p :: ps => if d = c then [] :: p :: ps else (d :: p) :: ps

/-- A field `name=value` of the header. -/
def splitField (field : List Char) : List Char × List Char :=
  (field.takeWhile (· ≠ '='), (field.dropWhile (· ≠ '=')).drop 1)

/-- What a header states. -/
structure Header where
  version : Option String
  keys : Option (List (List Char))
  crate : String
  deriving DecidableEq, Repr

/-- Reads the fields of a header; later ones replace earlier ones of the same name. What was read before
an unknown field is kept. -/
def readFields (h : Header) : List (List Char) → Header × Option RecoveryFault
  | [] => (h, none)
  | field :: rest =>
    let (name, value) := splitField field
    if name = "DEFMT".toList then readFields { h with version := some (String.ofList value) } rest
    else if name = "KEYS".toList then readFields { h with keys := some (splitAt ':' value) } rest
    else if name = "CRATE".toList then readFields { h with crate := String.ofList value } rest
    else (h, some (.unknownHeaderTag (String.ofList field)))

/-- The key of the message. -/
def messageKey : List Char := "<msg>".toList

/-- The name of a record field. A key that ends with a line feed asks for a line feed at the start of its
field. -/
structure Key where
  name : List Char
  lineFeed : Bool
  deriving DecidableEq, Repr

/-- Whether a character may occur in a key. -/
def isWord (c : Char) : Bool := c.isAlphanum || c = '_'

/-- Reads a key `<name>`. -/
def key? (text : List Char) : Option Key :=
  let plain := Hint.dropFinalLineFeed text
  match plain with
  | '<' :: rest =>
    let name := rest.dropLast
    if rest.getLast? = some '>' ∧ ¬ name.isEmpty ∧ name.all isWord then
      some ⟨name, text.length ≠ plain.length⟩
    else none
  | _ => none

/-- Reads keys up to the first that is malformed. -/
def readKeys : List (List Char) → Except RecoveryFault (List Key)
  | [] => .ok []
  | text :: rest =>
    match key? text with
    | none => .error (.malformedKey (String.ofList text))
    | some key =>
      match readKeys rest with
      | .ok keys => .ok (key :: keys)
      | .error fault => .error fault

/-- The first key that cannot name a field: it starts with a digit, or was seen before. -/
def unusable? (seen : List (List Char)) : List Key → Option Key
  | [] => none
  | key :: rest =>
    if key.name.head?.any Char.isDigit || seen.contains key.name then some key
    else unusable? (key.name :: seen) rest

/-- The keys of a header. -/
def usableKeys (header : String) (keys : Option (List (List Char))) :
    Except RecoveryFault (List Key) :=
  match keys with
  | none => .error (.noRecordKeys header)
  | some texts =>
    if !texts.contains messageKey then .error (.noRecordKeys header)
    else
      match readKeys texts with
      | .error fault => .error fault
      | .ok keys =>
        match unusable? [] keys with
        | some key => .error (.unusableKey (String.ofList key.name))
        | none => .ok keys

/-! ## Records -/

/-- The fields of a record by name. -/
abbrev Fields := List (List Char × List Char)

/-- Whether a key is that of the message. -/
def Key.isMessage (k : Key) : Bool := k = ⟨"msg".toList, false⟩

/-- Whether a text may be the field of a key. -/
def Key.accepts (k : Key) (text : List Char) : Bool :=
  if k.isMessage then !text.contains '\n'
  else if k.lineFeed then text.head? = some '\n'
  else true

/-- The parts of a record, one per key: colons beyond the number of keys belong to the message. -/
def parts? (keys : List Key) (text : List Char) : Option (List (List Char)) :=
  let ps := splitAt ':' text
  let before := (keys.takeWhile fun k => !k.isMessage).length
  let after := keys.length - before - 1
  if ps.length < keys.length then none
  else
    let message := (ps.drop before).take (ps.length - before - after)
    some (ps.take before ++ [[':'].intercalate message] ++ ps.drop (ps.length - after))

/-- The fields of a record. -/
def fields? (keys : List Key) (text : List Char) : Option Fields :=
  match parts? keys text with
  | none => none
  | some ps =>
    if (keys.zip ps).all fun (k, p) => k.accepts p then some ((keys.map Key.name).zip ps) else none

/-- A field as text, empty if the records have no such field. -/
def field (name : String) (fs : Fields) : String :=
  String.ofList ((fs.lookup name.toList).getD [])

/-- The level that stands for the timestamp format. -/
def timestampName : String := "timestamp"

/-- The level and tag that a level name stands for. -/
def levelAndTag (offset : Nat) (name : String) : Except RecoveryFault (Option Level × String) :=
  if name = timestampName then .ok (none, timestampTag)
  else if name.isEmpty then .ok (none, tagStart ++ "fmt")
  else
    match Level.named name with
    | .ok level => .ok (level, tagStart ++ name)
    | .error message => .error (.recordLevel offset message)

/-- The line number that a field states; a field that is not all digits states none. -/
def lineNumber (text : String) : Except RecoveryFault (Option SourceLine) :=
  let cs := text.toList
  if cs.isEmpty || !cs.all Text.isDigitLike then .ok none
  else
    match Text.decimal? cs with
    | some n => .ok (some (.number n))
    | none => .error (.lineNumber text)

/-- The location that the fields of a record state. -/
def location (fs : Fields) : Except RecoveryFault (Option Location) :=
  let file := field "file" fs
  if file.isEmpty then .ok none
  else
    match lineNumber (field "line" fs) with
    | .ok line => .ok (some ⟨field "module" fs, file, line⟩)
    | .error fault => .error fault

/-- The entry of a record. -/
def entryOfFields (crate : String) (offset : Nat) (fs : Fields) : Except RecoveryFault Entry :=
  match levelAndTag offset (field "level" fs) with
  | .error fault => .error fault
  | .ok (level, tag) =>
    match location fs with
    | .error fault => .error fault
    | .ok place =>
      let own := field "crate" fs
      .ok ⟨offset, .string (field "msg" fs), level, place,
        .string (if own.isEmpty then crate else own), tag⟩

/-- The entry of a run of bytes. -/
def entry (keys : List Key) (crate : String) (record : Nat × List UInt8) :
    Except RecoveryFault Entry :=
  match Text.Utf8.decode record.2 with
  | .error fault => .error (.recordNotText record.1 fault)
  | .ok text =>
    match fields? keys text.toList with
    | none => .error (.malformedRecord record.1 text)
    | some fs => entryOfFields crate record.1 fs

/-- Notes the version that a header states, if it states one. -/
def noteHeaderVersion (h : Header) : Recovering Unit :=
  match h.version with
  | some version => noteVersion version
  | none => pure ()

/-- Finds the version and the entries. -/
def collect (data : List UInt8) : Recovering Unit := do
  let text := Text.Utf8.decodeAscii (headerBytes data)
  let (header, unknown) := readFields ⟨none, none, ""⟩ (splitAt ',' text.toList)
  noteHeaderVersion header
  match unknown with
  | some fault => fail fault
  | none =>
    if header.version.isNone then fail .noVersion
    else
      match usableKeys text header.keys with
      | .error fault => fail fault
      | .ok keys => addEach (entry keys header.crate) (records data)

end DeferredLog.RecordLayout
