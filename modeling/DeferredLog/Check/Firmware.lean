import DeferredLog.Check.Formats
import DeferredLog.Metadata.Build
import DeferredLog.Metadata.ElfImage
import DeferredLog.Version.Compatibility

/-!
# Checking a firmware image

Recovers the table of an image and checks its formats. An image without a usable table is a finding
like any other and makes the report.
-/

namespace DeferredLog

/-- Why an image cannot be checked at all. -/
inductive InspectionFault where
  | unreadable (cause : Elf.Fault)
  /-- An accident of a single field of the image. -/
  | recovery (cause : RecoveryFault)
  | formats (cause : Fault)

/-- The wording of a fault. -/
def InspectionFault.message : InspectionFault → String
  | unreadable cause => cause.message
  | recovery cause => cause.message
  | formats cause => cause.message

/-- What a check found, and what was reported on the way. -/
structure Inspection where
  report : String
  records : List Log.Record
  deriving DecidableEq, Repr

/-- The report on an image that has no usable table. -/
def RecoveryFault.report (e : RecoveryFault) : String := s!"Unable to get format strings: {e.message}"

namespace Image

/-- Checks an image. -/
def inspect (image : Image) : Except InspectionFault Inspection :=
  match image.build Version.wireFormat Table.defaultMaxDepth with
  | (.error e, recovery) =>
    if e.isReported then .ok ⟨e.report, recovery.records⟩ else .error (.recovery e)
  | (.ok t, recovery) =>
    match t.check {} with
    | .ok report _ => .ok ⟨report, recovery.records⟩
    | .error e _ => .error (.formats e)

/-- Checks the image in a file. -/
def inspectElf (bytes : List UInt8) (name : String) : Except InspectionFault Inspection :=
  match ofElf bytes (some name) Dwarf.statementVariable with
  | .ok image => image.inspect
  | .error e => .error (.unreadable e)

end Image

end DeferredLog
