import DeferredLog.Version.Basic

/-!
# Compatible wire formats

A decoder reads the wire format of a firmware if the major versions are equal and its own minor version
and patch level are not older.
-/

namespace DeferredLog

/-- Why a wire format is not compatible. -/
inductive VersionFault where
  | notVersion (marker : String)
  | otherMajor (marker : String) (supported : Nat)
  | tooNew (marker supported : String)
  /-- The decoder's own version is not one. -/
  | badSupported (supported : String)
  deriving DecidableEq, Repr

/-- The wording of a version fault. -/
def VersionFault.message : VersionFault → String
  | notVersion marker => s!"wire format version '{marker}' is not a semantic version"
  | otherMajor marker supported =>
    s!"firmware uses wire format {marker}, decoder supports {supported}.x"
  | tooNew marker supported =>
    s!"firmware uses wire format {marker}, decoder only supports up to {supported}"
  | badSupported supported => s!"Invalid version: '{supported}'"

namespace Version

/-- The wire format that the library implements. -/
def wireFormat : String := "0.2.1"

/-- Whether minor version and patch level of `v` are newer than those of `w`. -/
def isNewerThan (v w : Version) : Bool :=
  w.minor < v.minor || (w.minor = v.minor && w.patch < v.patch)

/-- The version that a firmware's marker states, if a decoder that supports `supported` reads it. -/
def check (marker supported : String) : Except VersionFault Version :=
  match parse? marker with
  | none => .error (.notVersion marker)
  | some found =>
    match parse? supported with
    | none => .error (.badSupported supported)
    | some ours =>
      if found.major ≠ ours.major then .error (.otherMajor marker ours.major)
      else if found.isNewerThan ours then .error (.tooNew marker supported)
      else .ok found

end Version

end DeferredLog
