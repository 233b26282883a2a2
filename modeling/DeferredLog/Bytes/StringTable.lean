import DeferredLog.Bytes.Reading

/-!
# String tables

Many texts in one run of bytes, each ended by a zero byte and named by the offset at which it starts.
-/

namespace DeferredLog

/-- Texts that are named by their offsets. -/
structure StringTable where
  bytes : Array UInt8

namespace StringTable

/-- The table that some bytes hold. -/
def ofBytes (bytes : List UInt8) : StringTable := ⟨bytes.toArray⟩

/-- The bytes from `offset` up to a zero among the next `remaining` bytes. -/
def textFrom (bytes : Array UInt8) (offset : Nat) : Nat → Option (List UInt8)
  | 0 => none
  | remaining + 1 =>
    match bytes[offset]? with
    | none => none
    | some b =>
      if b = 0 then some [] else (textFrom bytes (offset + 1) remaining).map (b :: ·)

/-- The text at an offset. -/
def get? (t : StringTable) (offset : Nat) : Option (List UInt8) :=
  textFrom t.bytes offset (t.bytes.size - offset)

end StringTable

end DeferredLog
