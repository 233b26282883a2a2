import DeferredLog.FormatString.Hint
import DeferredLog.Text.Numeral

/-!
# Integers as text

Without a hint an integer is shown in decimal. A radix hint shows the two's complement pattern of a
negative number; its mark stands before zero padding and after space padding. The microsecond hint
shows a count of microseconds in seconds.

A padded number is as long as its hint asks for, whatever its width. This is an idealisation: a width beyond
the address space would be refused, as it is in message templates (`Text.Template`).
-/

namespace DeferredLog.Display

open Text

/-- The two's complement pattern of a number in `bits` bits; natural numbers are their own pattern. -/
def pattern (bits : Nat) (n : Int) : Nat :=
  if n < 0 then (n % Nat.pow 2 bits).toNat else n.toNat

/-- Seconds with six decimal places. -/
def microsText (n : Int) : List Char :=
  (if n < 0 then ['-'] else []) ++ digits 10 (n.natAbs / 1000000) ++ '.' ::
    padded 10 6 (n.natAbs % 1000000)

/-- The digits of a pattern in the base of a hint. -/
def radixDigits (kind : HintKind) (base n : Nat) : List Char :=
  if kind = .upperHex then (digits base n).map Char.toUpper else digits base n

/-- A pattern in the base of a hint, with mark and padding. -/
def radixText (h : Hint) (base n : Nat) : List Char :=
  let mark := if h.alternate then h.kind.radixMark.toList else []
  let ds := radixDigits h.kind base n
  if h.zeroPad then mark ++ ds.leftpad (h.width - mark.length) '0'
  else (mark ++ ds).leftpad h.width ' '

/-- An integer of a type with the given number of bits. -/
def integerText (bits : Nat) (n : Int) : Option Hint → List Char
  | none => (toString n).toList
  | some h =>
    match h.kind.radix? with
    | some base => radixText h base (pattern bits n)
    | none => if h.kind = .micros then microsText n else (toString n).toList

end DeferredLog.Display
