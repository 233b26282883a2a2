import DeferredLog.Fault
import DeferredLog.Level
import Std.Data.TreeMap

/-!
# The table of formats

A firmware image describes every format string by an entry under an index. A table holds entries with
distinct indices, each under its own index, and knows which of them is the timestamp format.
-/

namespace DeferredLog

/-- What is stated as the line of a place; debug information need not state a number. -/
inductive SourceLine where
  | number (n : Nat)
  /-- The bare statement that there is a line. -/
  | flag
  /-- Anything else, as it is written out. -/
  | other (text : String)
  deriving DecidableEq, Repr

/-- A line as it is written out. -/
def SourceLine.text : SourceLine → String
  | number n => toString n
  | flag => "True"
  | other text => text

/-- Place of a log statement in the firmware's source. -/
structure Location where
  module : String
  file : String
  line : Option SourceLine
  deriving DecidableEq, Repr

namespace Location

/-- The line of a location, or its absence. -/
def lineText (l : Location) : String := (l.line.map SourceLine.text).getD "None"

/-- File and line. -/
def text (l : Location) : String := s!"{l.file}:{l.lineText}"

end Location

/-- A format string of the firmware. `format` and `crate` are texts unless a symbol's metadata holds
something else; only entries with a level are log statements. -/
structure Entry where
  index : Nat
  format : Json
  level : Option Level
  location : Option Location
  crate : Json
  tag : String

/-- Why entries make no table. -/
inductive TableFault where
  | duplicateIndex (index : Nat) (first second : Json)
  | unknownTimestamp (index : Nat)

/-- The wording of a table fault. -/
def TableFault.message : TableFault → String
  | duplicateIndex index first second =>
    s!"index {index} claimed by both {first.literal} and {second.literal}"
  | unknownTimestamp index => (Fault.unknownIndex index).message

/-- Entries under their own indices. -/
structure EntryMap where
  map : Std.TreeMap Nat Entry
  index_eq : ∀ (i : Nat) (e : Entry), map[i]? = some e → e.index = i

namespace EntryMap

/-- No entries. -/
def empty : EntryMap where
  map := {}
  index_eq := by simp

/-- Enters an entry under its index, replacing one that is there. -/
def insert (m : EntryMap) (e : Entry) : EntryMap where
  map := m.map.insert e.index e
  index_eq := by
    intro i x h
    rw [Std.TreeMap.getElem?_insert] at h
    split at h
    · next heq =>
      obtain rfl := Option.some.inj h
      exact Std.LawfulEqCmp.eq_of_compare heq
    · exact m.index_eq i x h

/-- Enters entries whose indices must be new. -/
def insertAll (m : EntryMap) : List Entry → Except TableFault EntryMap
  | [] => .ok m
  | e :: es =>
    match m.map[e.index]? with
    | some first => .error (.duplicateIndex e.index first.format e.format)
    | none => (m.insert e).insertAll es

end EntryMap

/-- The formats of one firmware image. -/
structure Table where
  version : String
  maxDepth : Nat
  entryMap : EntryMap
  timestamp : Option Nat
  timestamp_mem : ∀ i : Nat, timestamp = some i → entryMap.map[i]?.isSome = true

namespace Table

/-- How deep values may nest unless stated otherwise. -/
def defaultMaxDepth : Nat := 32

/-- The table of some entries; `timestamp` is the index of the timestamp format. -/
def ofEntries (entries : List Entry) (version : String) (timestamp : Option Nat)
    (maxDepth : Nat) : Except TableFault Table :=
  match EntryMap.empty.insertAll entries with
  | .error e => .error e
  | .ok m =>
    match timestamp with
    | none => .ok ⟨version, maxDepth, m, none, by simp⟩
    | some i =>
      if h : m.map[i]?.isSome = true then
        .ok ⟨version, maxDepth, m, some i, fun j hj => by
          obtain rfl := Option.some.inj hj
          exact h⟩
      else .error (.unknownTimestamp i)

/-- The number of entries. -/
def size (t : Table) : Nat := t.entryMap.map.size

/-- The entry at an index. -/
def entry? (t : Table) (index : Nat) : Option Entry := t.entryMap.map[index]?

/-- The entry at an index that may be negative; no entry has such an index. -/
def lookup (t : Table) (index : Int) : Except Fault Entry :=
  match index with
  | .ofNat i =>
    match t.entry? i with
    | some e => .ok e
    | none => .error (.unknownIndex index)
  | .negSucc _ => .error (.unknownIndex index)

/-- The indices in increasing order. -/
def indices (t : Table) : List Nat := t.entryMap.map.keys

/-- The entries in increasing order of their indices. -/
def entries (t : Table) : List Entry := t.entryMap.map.values

end Table

end DeferredLog
