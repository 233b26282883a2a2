/-!
# Written numbers

Numbers in a base as digit lists, left padded where a field has a width. `digits` writes no
superfluous zero; `padded` adds zeros up to a least length and never cuts.
-/

namespace DeferredLog.Text

/-- The digits of a number in a base up to 16, lower case, without superfluous zeros. -/
def digits (base n : Nat) : List Char := Nat.toDigits base n

/-- The digits of a number, zero padded to at least `width` characters. -/
def padded (base width n : Nat) : List Char := (digits base n).leftpad width '0'

/-- A number in lower-case hexadecimal. -/
def hex (n : Nat) : String := String.ofList (digits 16 n)

/-- A number in lower-case hexadecimal, zero padded to at least `width` digits. -/
def hexPadded (width n : Nat) : String := String.ofList (padded 16 width n)

/-- Bytes in lower-case hexadecimal, two digits each. -/
def hexBytes (bytes : List UInt8) : String :=
  String.ofList (bytes.flatMap fun b => padded 16 2 b.toNat)

end DeferredLog.Text
