import DeferredLog.Display.Integer

/-!
# Escaped text

The debug hint shows text and characters in quotes, the ASCII hint shows bytes that way. Backslash,
line feed, carriage return, tabulator, NUL and the quote are written with a backslash, other control
characters by their code; in the byte form every byte that is not printable ASCII is.
-/

namespace DeferredLog.Display

open Text

/-- The letter after the backslash of a short escape. -/
def shortEscape? (c : Char) : Option Char :=
  if c = '\\' then some '\\'
  else if c = '\n' then some 'n'
  else if c = '\r' then some 'r'
  else if c = '\t' then some 't'
  else if c = '\x00' then some '0'
  else none

/-- One character of an escaped text. -/
def escapedChar (quote c : Char) : List Char :=
  match shortEscape? c with
  | some letter => ['\\', letter]
  | none =>
    if c = quote then ['\\', quote]
    else if c.toNat < 0x20 ∨ c.toNat = 0x7f then '\\' :: 'u' :: '{' :: digits 16 c.toNat ++ ['}']
    else [c]

/-- A text in quotes. -/
def escapedText (quote : Char) (cs : List Char) : List Char :=
  quote :: cs.flatMap (escapedChar quote) ++ [quote]

/-- One byte of an escaped byte string. -/
def escapedByte (b : UInt8) : List Char :=
  match shortEscape? (Char.ofNat b.toNat) with
  | some letter => ['\\', letter]
  | none =>
    if b = 0x22 then ['\\', '"']
    else if 0x20 ≤ b.toNat ∧ b.toNat < 0x7f then [Char.ofNat b.toNat]
    else '\\' :: 'x' :: padded 16 2 b.toNat

/-- Bytes as an escaped byte string. -/
def escapedBytes (bytes : List UInt8) : List Char :=
  'b' :: '"' :: bytes.flatMap escapedByte ++ ['"']

/-- Bytes as a list of integers. -/
def listedBytes (hint : Option Hint) (bytes : List UInt8) : List Char :=
  '[' :: [',', ' '].intercalate (bytes.map fun b => integerText 8 b.toNat hint) ++ [']']

/-- Bytes under a hint. -/
def bytesText (bytes : List UInt8) (hint : Option Hint) : List Char :=
  if hint.map Hint.kind = some .ascii then escapedBytes bytes else listedBytes hint bytes

end DeferredLog.Display
