import DeferredLog.Display.Float
import DeferredLog.Json.Basic

/-!
# Decoded values

One constructor per way an argument travels. The elements of a format slice are nested values of one
entry. A bit field carries the backing integer of its slot, of which only the bytes that the range
covers are known; the others are zero.
-/

namespace DeferredLog

/-- A decoded argument. -/
inductive Value where
  | integer (type : IntType) (value : Int)
  | float (value : FloatValue)
  | bool (value : Bool)
  | char (value : Char)
  | str (value : String)
  /-- Text of the table: the format of the entry at `index`. -/
  | istr (index : Nat) (format : Json)
  | bytes (value : List UInt8)
  | nested (index : Nat) (args : List Value)
  | formatSlice (index : Option Nat) (elements : List Value)
  | bitfield (range : BitRange) (value : Nat)

/-- Bits `low … high` of an integer, unless the bounds are out of order or negative. -/
def extractBits? (value low high : Int) : Option Int :=
  if high - low + 1 < 0 ∨ low < 0 then none
  else some ((value >>> low.toNat) % Nat.pow 2 (high - low + 1).toNat)

namespace Value

mutual

/-- Equality of values, in which floating-point numbers are compared as numbers. -/
def equal : Value → Value → Bool
  | integer t n, integer u k => t = u && n = k
  | float a, float b => a.type = b.type && a.numericallyEqual b
  | bool a, bool b => a = b
  | char a, char b => a = b
  | str a, str b => a = b
  | istr i _, istr j _ => i = j
  | bytes a, bytes b => a = b
  | nested i as, nested j bs => i = j && equalAll as bs
  | formatSlice i as, formatSlice j bs => i = j && equalAll as bs
  | bitfield r n, bitfield s k => r = s && n = k
  | _, _ => false

/-- Equality of lists of values. -/
def equalAll : List Value → List Value → Bool
  | [], [] => true
  | a :: as, b :: bs => equal a b && equalAll as bs
  | _, _ => false

end

end Value

end DeferredLog
