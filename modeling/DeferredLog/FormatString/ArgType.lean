import DeferredLog.Text.CharClass

/-!
# Argument types

The type of a directive says how its argument travels on the wire. `ArgType` has exactly the values
that a type tag can denote: bit ranges are not empty and lie inside their backing integer, and the
tag of a fixed nested entry is the numeral as written, so that `@7` and `@07` are two types with one
target. `ArgType.name` is the tag that denotes a type.
-/

namespace DeferredLog

/-! ## Scalars -/

/-- Integers by wire size and signedness; `usize` and `isize` are those of a 32-bit target. -/
inductive IntType where
  | u8 | u16 | u24 | u32 | u64 | u128 | usize
  | i8 | i16 | i32 | i64 | i128 | isize
  deriving DecidableEq, Repr

/-- The tag of an integer type. -/
def IntType.name : IntType → String
  | .u8 => "u8" | .u16 => "u16" | .u24 => "u24" | .u32 => "u32" | .u64 => "u64" | .u128 => "u128"
  | .usize => "usize"
  | .i8 => "i8" | .i16 => "i16" | .i32 => "i32" | .i64 => "i64" | .i128 => "i128"
  | .isize => "isize"

/-- Size in bytes. -/
def IntType.size : IntType → Nat
  | .u8 | .i8 => 1
  | .u16 | .i16 => 2
  | .u24 => 3
  | .u32 | .i32 | .usize | .isize => 4
  | .u64 | .i64 => 8
  | .u128 | .i128 => 16

/-- Whether values are two's complement. -/
def IntType.signed : IntType → Bool
  | .i8 | .i16 | .i32 | .i64 | .i128 | .isize => true
  | _ => false

/-- Size in bits. -/
def IntType.bits (t : IntType) : Nat := t.size * 8

/-- IEEE 754 binary formats. -/
inductive FloatType where
  | f32 | f64
  deriving DecidableEq, Repr

/-- The tag of a float type. -/
def FloatType.name : FloatType → String
  | .f32 => "f32"
  | .f64 => "f64"

/-- Size in bytes. -/
def FloatType.size : FloatType → Nat
  | .f32 => 4
  | .f64 => 8

/-! ## Bit ranges -/

/-- The integer that a bit range is cut from. -/
inductive Backing where
  | w8 | w16 | w32 | w64
  deriving DecidableEq, Repr

/-- Size in bits. -/
def Backing.bits : Backing → Nat
  | .w8 => 8
  | .w16 => 16
  | .w32 => 32
  | .w64 => 64

/-- Bits `low … high` of a backing integer, at least two of them. -/
structure BitRange where
  backing : Backing
  low : Nat
  high : Nat
  low_lt_high : low < high
  high_lt_bits : high < backing.bits
  deriving DecidableEq, Repr

/-- The least range that covers two ranges of the first one's backing integer. -/
def BitRange.join (a b : BitRange) (h : b.backing = a.backing) : BitRange where
  backing := a.backing
  low := min a.low b.low
  high := max a.high b.high
  low_lt_high := by have := a.low_lt_high; omega
  high_lt_bits := by
    have := a.high_lt_bits
    have := b.high_lt_bits
    rw [h] at this
    omega

/-- The tag of a bit range. -/
def BitRange.name (r : BitRange) : String := s!"u{r.backing.bits}[{r.low}..={r.high}]"

/-- The lowest byte of the backing integer that holds a bit of the range. -/
def BitRange.lowByte (r : BitRange) : Nat := r.low / 8

/-- How many bytes of the backing integer hold bits of the range. -/
def BitRange.byteCount (r : BitRange) : Nat := r.high / 8 - r.low / 8 + 1

/-! ## All types -/

/-- Whether a text is a number in decimal digits of any script. -/
def Text.isNumeral (cs : List Char) : Bool := !cs.isEmpty && cs.all Text.isDigit

/-- A table index as written in a tag. -/
structure IndexTag where
  digits : List Char
  isNumeral : Text.isNumeral digits = true
  deriving DecidableEq

/-- The index that a tag denotes. -/
def IndexTag.index (t : IndexTag) : Nat := Text.digitsValue t.digits

/-- On-wire type of one argument. -/
inductive ArgType where
  | integer (t : IntType)
  | float (t : FloatType)
  | bool
  | char
  /-- Text with its length in front. -/
  | str
  /-- Text held by the table, given by index. -/
  | istr
  /-- Bytes with their length in front. -/
  | bytes
  /-- A fixed number of bytes. -/
  | byteArray (length : Nat)
  /-- A value formatted by the table entry whose index precedes it. -/
  | format
  /-- Any number of values formatted by one entry. -/
  | formatSlice
  /-- A value formatted by a fixed table entry. -/
  | nested (target : IndexTag)
  | bitfield (range : BitRange)
  deriving DecidableEq

namespace ArgType

/-- The tag of a type. -/
def name : ArgType → String
  | integer t => t.name
  | float t => t.name
  | bool => "bool"
  | char => "char"
  | str => "str"
  | istr => "istr"
  | bytes => "[u8]"
  | byteArray n => s!"[u8; {n}]"
  | format => "?"
  | formatSlice => "[?]"
  | nested t => "@" ++ String.ofList t.digits
  | bitfield r => r.name

/-- The types whose tags are fixed words. -/
def primitives : List ArgType :=
  [integer .u8, integer .u16, integer .u24, integer .u32, integer .u64, integer .u128,
   integer .usize, integer .i8, integer .i16, integer .i32, integer .i64, integer .i128,
   integer .isize, float .f32, float .f64, bool, char, str, istr, bytes, format, formatSlice]

/-- Size in bytes of the value, zero where the wire carries a length or an index. -/
def size : ArgType → Nat
  | integer t => t.size
  | float t => t.size
  | bool => 1
  | char => 4
  | byteArray n => n
  | bitfield r => r.backing.bits / 8
  | str | istr | bytes | format | formatSlice | nested _ => 0

/-- Whether values are two's complement. -/
def signed : ArgType → Bool
  | integer t => t.signed
  | _ => false

/-- The entry that a type fixes. -/
def target? : ArgType → Option Nat
  | nested t => some t.index
  | _ => none

end ArgType

end DeferredLog
