import DeferredLog.Table.Formats

/-!
# Checking the formats of a table

The checker reports every format that cannot be used, in the order of the indices and without stopping
at the first, and a timestamp format that is a log statement.
-/

namespace DeferredLog

/-- A complaint about an entry. -/
inductive Finding where
  | malformed (fault : Fault)
  | timestampStatement

/-- How a complaint goes on after the entry's format. -/
def Finding.message : Finding → String
  | malformed fault => s!"is malformed: {fault.message}"
  | timestampStatement => "is both the timestamp and a log statement"

/-- The line of a complaint. -/
def Entry.complaint (e : Entry) (finding : Finding) : String :=
  let place :=
    match e.location with
    | some l => s!" ({l.text})"
    | none => ""
  s!"'{e.format.plain}'{place} {finding.message}"

/-- Whether a fault is one of the format, and no accident of its metadata. -/
def Fault.isFormatFault (e : Fault) : Bool :=
  match e.kind with
  | .malformedDirective | .cyclicNesting => true
  | _ => false

namespace Table

/-- The complaint about an entry, if there is one. -/
def finding? (t : Table) (e : Entry) : Cached (Option Finding) := do
  match ← Cached.attempt (t.format e.index) with
  | .ok _ =>
    pure (if t.timestamp = some e.index ∧ e.level.isSome then some .timestampStatement else none)
  | .error fault =>
    if fault.isFormatFault then pure (some (.malformed fault)) else throwThe Fault fault

/-- The complaints about some entries. -/
def findings (t : Table) : List Entry → Cached (List (Entry × Finding))
  | [] => pure []
  | e :: es => do
    let finding ← t.finding? e
    let rest ← findings t es
    match finding with
    | some f => pure ((e, f) :: rest)
    | none => pure rest

/-- The report on complaints; empty if there are none. -/
def reportText (found : List (Entry × Finding)) : String :=
  match found with
  | [] => ""
  | [_] => "\n".intercalate ("Format String Error:" :: found.map fun (e, f) => e.complaint f)
  | _ => "\n".intercalate ("Format String Errors:" :: found.map fun (e, f) => e.complaint f)

/-- Checks all formats of a table. -/
def check (t : Table) : Cached String := do
  let found ← t.findings t.entries
  pure (reportText found)

end Table

end DeferredLog
