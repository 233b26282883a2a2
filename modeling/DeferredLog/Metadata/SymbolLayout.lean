import DeferredLog.FormatString.Tag
import DeferredLog.Json.Parser
import DeferredLog.Metadata.Recovery

/-!
# The symbol layout

Every symbol in the format section is one format string, and its address is the index. The name is
either a JSON object with the format, a tag that states the level, and the crate, or the format itself;
then the level comes from the address ranges between marker symbols. The wire format version is the name
of a symbol, too.

Source locations come from debug information. They are used only if every log statement has one.
-/

namespace DeferredLog.SymbolLayout

open Recovering

/-! ## Markers -/

/-- What the names of version symbols start with. -/
def versionStart : String := "_defmt_version_ = "

/-- The version that a symbol's name states; quotes around the name do not count. -/
def versionMarker? (name : String) : Option String :=
  (versionStart.toList.isPrefixOf? (Text.trim (· = '"') name.toList)).map String.ofList

/-- The versions that symbols state, each once, in order of first appearance. -/
def versions (symbols : List ImageSymbol) : List String :=
  (symbols.filterMap fun s => versionMarker? s.name).eraseDups

/-- The ends of a level's address range. -/
inductive Edge where
  | start | finish
  deriving DecidableEq, Repr

/-- The name of an edge in markers. -/
def Edge.word : Edge → String
  | start => "start"
  | finish => "end"

/-- All edges of all levels. -/
def allEdges : List (Level × Edge) :=
  Level.all.flatMap fun level => [(level, .start), (level, .finish)]

/-- The edge that a symbol's name marks; one line feed may follow. -/
def edge? (name : String) : Option (Level × Edge) :=
  let plain := String.ofList (Hint.dropFinalLineFeed name.toList)
  allEdges.find? fun (level, edge) => plain = s!"_defmt_{level.tagName}_{edge.word}"

/-- The marked edges of one level. -/
structure Edges where
  level : Level
  start : Option Nat
  finish : Option Nat
  deriving DecidableEq, Repr

/-- Moves an edge. -/
def Edges.set (edge : Edge) (address : Nat) (e : Edges) : Edges :=
  match edge with
  | .start => { e with start := some address }
  | .finish => { e with finish := some address }

/-- Enters a marker; levels stay in order of first appearance. -/
def enterEdge (level : Level) (edge : Edge) (address : Nat) : List Edges → List Edges
  | [] => [Edges.set edge address ⟨level, none, none⟩]
  | e :: es =>
    if e.level = level then e.set edge address :: es else e :: enterEdge level edge address es

/-- The addresses from `start` up to `finish` belong to a level. -/
structure LevelRange where
  level : Level
  start : Nat
  finish : Nat
  deriving DecidableEq, Repr

/-- The ranges of levels all of whose edges are marked. -/
def ranges : List Edges → Except RecoveryFault (List LevelRange)
  | [] => .ok []
  | e :: es =>
    match e.start, e.finish with
    | some start, some finish =>
      match ranges es with
      | .ok rs => .ok (⟨e.level, start, finish⟩ :: rs)
      | .error fault => .error fault
    | _, _ => .error (.incompleteMarkers e.level)

/-- The level of an address; of several ranges that hold it, the last counts. -/
def levelAt? (address : Nat) (rs : List LevelRange) : Option Level :=
  (rs.reverse.find? fun r => r.start ≤ address && address < r.finish).map LevelRange.level

/-! ## Entries -/

/-- Symbols of the format section that have a name and state no version. -/
def formatSymbols (symbols : List ImageSymbol) : List ImageSymbol :=
  symbols.filter fun s =>
    (versionMarker? s.name).isNone && Image.isFormatSymbol s && !s.name.isEmpty

/-- Symbols that are format strings. -/
def candidates (symbols : List ImageSymbol) : List ImageSymbol :=
  (formatSymbols symbols).filter fun s => (edge? s.name).isNone

/-- The edges that symbols mark. -/
def edges (symbols : List ImageSymbol) : List Edges :=
  (formatSymbols symbols).foldl
    (fun es s =>
      match edge? s.name with
      | some (level, edge) => enterEdge level edge s.address es
      | none => es) []

/-- The level that a tag states. -/
def levelOfTag? (tag : String) : Option Level :=
  (tagStart.toList.isPrefixOf? tag.toList).bind fun rest => Level.ofTagName? (String.ofList rest)

/-- The tag of a level. -/
def tagOf : Option Level → String
  | some level => tagStart ++ level.tagName
  | none => ""

/-- What a symbol's name holds if it is JSON metadata: the format, the tag and the crate. -/
def metadata? (name : String) : Option (Json × Json × Json) :=
  match name.toList with
  | '{' :: _ =>
    match Json.parse? name.toList with
    | some (.object members) =>
      match Json.member? "data" members, Json.member? "tag" members with
      | some format, some tag =>
        some (format, tag, (Json.member? "package" members).getD (.string ""))
      | _, _ => none
    | _ => none
  | _ => none

/-- The entry of a symbol. -/
def entry (rs : List LevelRange) (s : ImageSymbol) : Except RecoveryFault Entry :=
  match metadata? s.name with
  | some (format, .string tag, crate) =>
    .ok ⟨s.address, format, levelOfTag? tag, none, crate, tag⟩
  | some _ => .error .tagNotText
  | none =>
    let level := levelAt? s.address rs
    .ok ⟨s.address, .string s.name, level, none, .string "", tagOf level⟩

/-- Finds the version and the entries. -/
def collect (symbols : List ImageSymbol) : Recovering Unit :=
  match versions symbols with
  | [] => fail .noVersion
  | [version] => do
    noteVersion version
    match ranges (edges symbols) with
    | .error fault => fail fault
    | .ok rs => addEach (entry rs) (candidates symbols)
  | several => fail (.severalVersions (several.mergeSort fun a b => a ≤ b))

/-! ## Locations -/

/-- The locations of statements that the linker has kept, by address. -/
def liveLocations (symbols : List ImageSymbol) (found : List StatementLocation) :
    List StatementLocation :=
  let live := (symbols.filter Image.isFormatSymbol).map ImageSymbol.name
  found.filter fun l => live.contains l.linkageName

/-- Locations by address, each address at most once. -/
def byAddress : List StatementLocation → Std.TreeMap Nat Location →
    Except RecoveryFault (Std.TreeMap Nat Location)
  | [], known => .ok known
  | l :: ls, known =>
    match known[l.address]? with
    | some first => .error (.locationCollision l.address first l.location)
    | none => byAddress ls (known.insert l.address l.location)

/-- The report that locations are left out. -/
def incompleteRecord : Log.Record :=
  .plain .builder .warning "Location info is incomplete; it will be omitted from the output"

/-- Whether every log statement has a location. -/
def isComplete (known : Std.TreeMap Nat Location) (entries : List Entry) : Bool :=
  entries.all fun e => e.level.isNone || known.contains e.index

/-- The locations of an image by address. Two at one address are found before the fault that ended the
reading of locations. -/
def knownLocations (image : Image) : Except RecoveryFault (Std.TreeMap Nat Location) :=
  match byAddress (liveLocations image.symbols image.locations) {}, image.locationFault with
  | .ok _, some fault => .error (.location fault)
  | known, _ => known

/-- Gives the entries their locations. -/
def attach (image : Image) : Recovering Unit := fun r =>
  match knownLocations image with
  | .error fault => .error fault r
  | .ok known =>
    if known.isEmpty then .ok () r
    else if isComplete known r.entries then
      .ok () { r with entries := r.entries.map fun e => { e with location := known[e.index]? } }
    else .ok () { r with records := r.records ++ [incompleteRecord] }

end DeferredLog.SymbolLayout
