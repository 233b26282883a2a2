import DeferredLog.Bytes.Order
import DeferredLog.Fault

/-!
# Reading bytes

A cursor stands somewhere in, or beyond, a run of bytes. `read` takes a number of bytes or starves and
then says how many more it needs; `uint` reads a little-endian integer and `uleb128` a number in groups
of seven bits, the least significant group first, where the top bit of a byte tells that another one
follows.
-/

namespace DeferredLog

/-- A position in a run of bytes. Beyond the end there is nothing left to read, and `excess` counts the
bytes between the end and the position. -/
structure Cursor where
  rest : List UInt8
  offset : Nat
  excess : Nat
  deriving DecidableEq, Repr

namespace Cursor

/-- The position `offset` bytes into `data`. -/
def ofData (data : List UInt8) (offset : Nat) : Cursor :=
  ⟨data.drop offset, offset, offset - data.length⟩

/-- The start of a run of bytes. -/
def start (data : List UInt8) : Cursor := ⟨data, 0, 0⟩

/-- How many bytes are left; negative beyond the end. -/
def remaining (c : Cursor) : Int := c.rest.length - c.excess

/-- The position `count` bytes on. -/
def advance (count : Nat) (c : Cursor) : Cursor :=
  ⟨c.rest.drop count, c.offset + count, c.excess⟩

/-! ## Readings -/

/-- Reads `count` bytes. -/
def read (count : Nat) (c : Cursor) : Except Fault (List UInt8 × Cursor) :=
  let found := (c.rest.take (count + c.excess)).length
  if found < count + c.excess then .error (.starved (count + c.excess - found))
  else .ok (c.rest.take count, c.advance count)

/-- Reads one byte. -/
def byte (c : Cursor) : Except Fault (UInt8 × Cursor) :=
  match c.read 1 with
  | .ok (bytes, c) => .ok (bytes.headD 0, c)
  | .error e => .error e

/-- The two's complement reading of a number of `bits` bits. -/
def twosComplement (bits n : Nat) : Int :=
  if 2 * n < Nat.pow 2 bits then n else (n : Int) - Nat.pow 2 bits

/-- Reads an unsigned integer of `size` bytes. -/
def nat (size : Nat) (c : Cursor) : Except Fault (Nat × Cursor) :=
  match c.read size with
  | .ok (bytes, c) => .ok (littleEndian bytes, c)
  | .error e => .error e

/-- Reads an integer of `size` bytes. -/
def uint (size : Nat) (signed : Bool) (c : Cursor) : Except Fault (Int × Cursor) :=
  match c.nat size with
  | .ok (n, c) => .ok (if signed then twosComplement (8 * size) n else n, c)
  | .error e => .error e

/-- Reads a number of at most `limit` groups. -/
def uleb128Within : Nat → Cursor → Except Fault (Nat × Cursor)
  | 0, _ => .error (.value .longNumber)
  | limit + 1, c =>
    match c.byte with
    | .error e => .error e
    | .ok (b, c) =>
      if b.toNat < 128 then .ok (b.toNat, c)
      else
        match uleb128Within limit c with
        | .error e => .error e
        | .ok (high, c) => .ok (b.toNat % 128 + 128 * high, c)

/-- Reads a variable-length number. -/
def uleb128 (c : Cursor) : Except Fault (Nat × Cursor) := c.uleb128Within maxNumberBytes

/-! ## Readings one at a time -/

/-- A reading that can be asked for by itself. -/
inductive Reading where
  | bytes (count : Nat)
  | uint (size : Nat) (signed : Bool)
  | uleb128
  deriving DecidableEq, Repr

/-- What a reading yields. -/
inductive Datum where
  | bytes (value : List UInt8)
  | number (value : Int)
  deriving DecidableEq, Repr

/-- Where a variable-length number that could not be read leaves the cursor: behind the bytes it looked
at. -/
def afterFailedNumber (c : Cursor) : Cursor := c.advance (min maxNumberBytes c.rest.length)

/-- Performs a reading; the cursor moves even if it fails inside a variable-length number. -/
def perform (r : Reading) (c : Cursor) : Except Fault Datum × Cursor :=
  match r with
  | .bytes count =>
    match c.read count with
    | .ok (bytes, c) => (.ok (.bytes bytes), c)
    | .error e => (.error e, c)
  | .uint size signed =>
    match c.uint size signed with
    | .ok (n, c) => (.ok (.number n), c)
    | .error e => (.error e, c)
  | .uleb128 =>
    match c.uleb128 with
    | .ok (n, c) => (.ok (.number n), c)
    | .error e => (.error e, c.afterFailedNumber)

end Cursor

end DeferredLog
