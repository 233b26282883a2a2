import DeferredLog.Bytes.Order

/-!
# Reading binary files

A `Reading` takes what it needs from the front of some bytes and leaves the rest, or fails. Numbers have
a fixed size, or are cut into groups of seven bits whose last byte has its top bit clear; texts end in a
zero byte.
-/

namespace DeferredLog

/-- Takes what it needs from the front of some bytes, or fails. -/
abbrev Reading (α : Type) := StateT (List UInt8) Option α

namespace Reading

/-- What a reading yields at the front of `input`. -/
def value? {α : Type} (r : Reading α) (input : List UInt8) : Option α := (r input).map Prod.fst

/-- The next `count` bytes. -/
def bytes (count : Nat) : Reading (List UInt8) := fun input =>
  let taken := input.take count
  if taken.length = count then some (taken, input.drop count) else none

/-- A number of `size` bytes. -/
def number (order : ByteOrder) (size : Nat) : Reading Nat := order.value <$> bytes size

/-- A number of one byte. -/
def byte : Reading Nat := number .little 1

/-! ## Variable lengths -/

/-- Splits an unsigned number off its groups, the least significant first. -/
def splitUnsigned : List UInt8 → Option (Nat × List UInt8)
  | [] => none
  | b :: rest =>
    if b.toNat < 128 then some (b.toNat, rest)
    else (splitUnsigned rest).map fun (high, rest) => (b.toNat % 128 + 128 * high, rest)

/-- Splits a signed number off its groups; the second highest bit of the last byte is the sign. -/
def splitSigned : List UInt8 → Option (Int × List UInt8)
  | [] => none
  | b :: rest =>
    if b.toNat < 64 then some (b.toNat, rest)
    else if b.toNat < 128 then some (b.toNat - 128, rest)
    else (splitSigned rest).map fun (high, rest) => (b.toNat % 128 + 128 * high, rest)

/-- Splits the bytes before the first zero off. -/
def splitText : List UInt8 → Option (List UInt8 × List UInt8)
  | [] => none
  | b :: rest =>
    if b = 0 then some ([], rest) else (splitText rest).map fun (text, rest) => (b :: text, rest)

/-- An unsigned number of variable length. -/
def unsigned : Reading Nat := splitUnsigned

/-- A signed number of variable length. -/
def signed : Reading Int := splitSigned

/-- A text up to its zero byte. -/
def text : Reading (List UInt8) := splitText

/-! ## Repetition -/

/-- A reading `count` times. -/
def times {α : Type} (r : Reading α) : Nat → Reading (List α)
  | 0 => pure []
  | count + 1 => do
    let a ← r
    let others ← times r count
    pure (a :: others)

/-- A reading until it yields nothing, at most `limit` times. -/
def untilNoneWithin {α : Type} (r : Reading (Option α)) : Nat → Reading (List α)
  | 0 => failure
  | limit + 1 => do
    match ← r with
    | none => pure []
    | some a => do
      let others ← untilNoneWithin r limit
      pure (a :: others)

/-- A reading, which takes at least a byte each time, until it yields nothing. -/
def untilNone {α : Type} (r : Reading (Option α)) : Reading (List α) := fun input =>
  untilNoneWithin r (input.length + 1) input

/-- A reading until no byte is left, at most `limit` times. -/
def allWithin {α : Type} (r : Reading α) : Nat → List UInt8 → Option (List α)
  | _, [] => some []
  | 0, _ => none
  | limit + 1, input =>
    match r input with
    | none => none
    | some (a, rest) => (allWithin r limit rest).map (a :: ·)

/-- A reading, which takes at least a byte each time, until no byte is left. -/
def all? {α : Type} (r : Reading α) (input : List UInt8) : Option (List α) :=
  allWithin r input.length input

end Reading

end DeferredLog
