/-!
# Numbers in bytes

The value of a run of bytes, read as one number. `littleEndian` has the least significant byte first;
`ByteOrder` is the choice that a file makes for all of its numbers.
-/

namespace DeferredLog

/-- The value of bytes, the least significant first. -/
def littleEndian : List UInt8 → Nat
  | [] => 0
  | b :: bs => b.toNat + 256 * littleEndian bs

/-- Which end of a number comes first. -/
inductive ByteOrder where
  | little
  | big
  deriving DecidableEq, Repr

/-- The value of bytes in an order. -/
def ByteOrder.value : ByteOrder → List UInt8 → Nat
  | .little, bytes => littleEndian bytes
  | .big, bytes => littleEndian bytes.reverse

end DeferredLog
