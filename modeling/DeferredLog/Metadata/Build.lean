import DeferredLog.Metadata.RecordLayout
import DeferredLog.Metadata.SymbolLayout

/-!
# Building a table from an image

An image with format symbols has the symbol layout, any other the record layout. A table is built only
if its wire format is compatible and every index is unique.
-/

namespace DeferredLog.Image

open Recovering

/-- Checks the version found against the one supported. -/
def checkVersion (supported : String) : Recovering Unit := fun r =>
  match r.version with
  | none => .error .noVersion r
  | some marker =>
    match Version.check marker supported with
    | .ok _ => .ok () r
    | .error cause => .error (.version cause) r

/-- The report on a table. -/
def tableRecord (t : Table) : Log.Record :=
  .plain .builder .debug s!"Recovered {t.size} format strings (wire format {t.version})"

/-- The table of what has been recovered. -/
def finish (maxDepth : Nat) : Recovering Table := fun r =>
  match Table.ofEntries r.entries (r.version.getD "") r.timestamp maxDepth with
  | .ok t => .ok t { r with records := r.records ++ [tableRecord t] }
  | .error cause => .error (.table cause) r

/-- Recovers the table of an image. -/
def recover (image : Image) (supported : String) (maxDepth : Nat) : Recovering Table := do
  report image.symbolRecords
  if image.symbols.any isFormatSymbol then
    SymbolLayout.collect image.symbols
    checkVersion supported
    report image.locationRecords
    SymbolLayout.attach image
  else
    match image.sectionData? recordSection with
    | none => fail .noSection
    | some data =>
      RecordLayout.collect data
      checkVersion supported
  finish maxDepth

/-- The outcome of recovering a table, and what was recovered in either case. -/
def build (image : Image) (supported : String) (maxDepth : Nat) :
    Except RecoveryFault Table × Recovery :=
  match recover image supported maxDepth Recovery.empty with
  | .ok t r => (.ok t, r)
  | .error fault r => (.error fault, r)

end DeferredLog.Image
