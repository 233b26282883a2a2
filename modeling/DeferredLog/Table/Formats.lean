import DeferredLog.FormatString.Parser
import DeferredLog.Table.Basic

/-!
# Parsed formats

The format of an entry is parsed when it is first needed and then remembered. An entry that fixes
others by `@N` is only usable if all of them are: `walk` follows these references depth first, and
refuses an entry that leads back to itself. The walk is written once over a `Memo`; `Table.format`
remembers what it parsed in a `FormatCache`, and `Table.freshFormat` remembers nothing.

The walk is recursive and may go as deep as the table is large. This is an idealisation: there is no limit
on recursion, so a long chain of references ends in a format or in one of the faults below.
-/

namespace DeferredLog

/-! ## One entry -/

/-- The format in place of which metadata holds a list: texts that are not lone braces make one literal
run. -/
def NoFormat.ofItems (items : List Json) : Except NoFormat FormatString :=
  let texts := items.filterMap Json.text?
  if texts.any fun s => s = "\x7b" || s = "\x7d" then .error .braceItem
  else if texts.length ≠ items.length then .error .notText
  else if items.isEmpty then .ok ⟨[], []⟩
  else .ok ⟨[.literal (String.join texts)], []⟩

/-- Parses the format of an entry by itself. -/
def Entry.readFormat (e : Entry) : Except Fault FormatString :=
  match e.format with
  | .string s =>
    match FormatString.parse s with
    | .ok f => .ok f
    | .error cause => .error (.malformedFormat e.index cause)
  | .array items =>
    match NoFormat.ofItems items with
    | .ok f => .ok f
    | .error cause => .error (.noFormat cause)
  | .object [] => .ok ⟨[], []⟩
  | .object (_ :: _) => .error (.noFormat .members)
  | .null | .bool _ | .integer _ | .number _ => .error (.noFormat .notText)

/-! ## References -/

/-- A memory of parsed formats. -/
structure Memo (m : Type → Type) where
  lookUp : Nat → m (Option FormatString)
  store : Nat → FormatString → m Unit

section
variable {m : Type → Type} [Monad m] [MonadExceptOf Fault m]

/-- Visits entries in order. -/
def visitAll (visit : Nat → m FormatString) : List Nat → m Unit
  | [] => pure ()
  | target :: rest => do
    let _ ← visit target
    visitAll visit rest

/-- Visits an entry that `index` fixes. -/
def Table.visitTarget (t : Table) (index : Nat) (visit : Nat → m FormatString) (target : Nat) :
    m FormatString :=
  if (t.entry? target).isSome then visit target
  else throwThe Fault (.nestsUnknown index target)

/-- The format of the entry at `index`, all entries that it leads to being usable; `path` leads to it.
No path is longer than the table, so `t.size + 1` steps are enough for the empty one. -/
def Table.walk (t : Table) (memo : Memo m) : Nat → List Nat → Nat → m FormatString
  | 0, path, index => throwThe Fault (.cyclic index path)
  | steps + 1, path, index => do
    match ← memo.lookUp index with
    | some f => pure f
    | none =>
      if path.contains index then throwThe Fault (.cyclic index path)
      else
        let e ← Fault.lift (t.lookup index)
        let f ← Fault.lift e.readFormat
        visitAll (t.visitTarget index (t.walk memo steps (path ++ [index]))) f.nestedTargets
        memo.store index f
        pure f

end

/-! ## Remembered and fresh formats -/

/-- Formats parsed so far, by index. -/
abbrev FormatCache := Std.TreeMap Nat FormatString

/-- Computations that parse formats on their way; what they parsed stays remembered if they fail. -/
abbrev Cached (α : Type) := EStateM Fault FormatCache α

namespace Cached

/-- The memory of cached computations. -/
def memo : Memo Cached where
  lookUp index := fun cache => .ok cache[index]? cache
  store index f := fun cache => .ok () (cache.insert index f)

/-- The outcome of a computation, faults included. -/
def attempt {α : Type} (x : Cached α) : Cached (Except Fault α) := fun cache =>
  match x cache with
  | .ok a cache => .ok (.ok a) cache
  | .error e cache => .ok (.error e) cache

end Cached

/-- No memory at all. -/
def Memo.none : Memo (Except Fault) where
  lookUp _ := .ok .none
  store _ _ := .ok ()

namespace Table

/-- The format of an entry, parsed at most once. -/
def format (t : Table) (index : Nat) : Cached FormatString :=
  t.walk Cached.memo (t.size + 1) [] index

/-- The format of an entry, parsed anew. -/
def freshFormat (t : Table) (index : Nat) : Except Fault FormatString :=
  t.walk Memo.none (t.size + 1) [] index

/-- The format at an index that may be negative. -/
def formatAt (t : Table) : Int → Cached FormatString
  | .ofNat index => t.format index
  | .negSucc n => throwThe Fault (.unknownIndex (.negSucc n))

/-- Parses every format, in the order of the indices, up to the first that cannot be. -/
def formatAll (t : Table) : Cached Unit := visitAll t.format t.indices

end Table

end DeferredLog
