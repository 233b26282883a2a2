import DeferredLog.Text.Numeral
import DeferredLog.Text.Unprintable

/-!
# Quoted text in messages

Messages show a format string the way a source file would: in single quotes, or in double quotes if
it holds single quotes only, with a backslash before the quote and before a backslash, and with an
escape for every character that has no visible form.
-/

namespace DeferredLog.Text

/-- The quote that needs the fewest escapes: double only if single quotes, and no double ones, occur. -/
def quoteFor (singles doubles : Bool) : Char :=
  if singles && !doubles then '"' else '\''

/-- One character of a quoted text. -/
def quotedChar (quote c : Char) : List Char :=
  let n := c.toNat
  if c = quote || c = '\\' then ['\\', c]
  else if c = '\t' then ['\\', 't']
  else if c = '\n' then ['\\', 'n']
  else if c = '\r' then ['\\', 'r']
  else if n < 0x20 || n = 0x7f then '\\' :: 'x' :: padded 16 2 n
  else if n < 0x7f || !isUnprintable c then [c]
  else if n < 0x100 then '\\' :: 'x' :: padded 16 2 n
  else if n < 0x10000 then '\\' :: 'u' :: padded 16 4 n
  else '\\' :: 'U' :: padded 16 8 n

/-- A text as a quoted literal. -/
def quoted (s : String) : String :=
  let cs := s.toList
  let quote := quoteFor (cs.contains '\'') (cs.contains '"')
  String.ofList (quote :: cs.flatMap (quotedChar quote) ++ [quote])

/-- One byte of a quoted byte string: everything but visible ASCII is escaped. -/
def quotedByte (quote : Char) (b : UInt8) : List Char :=
  if b.toNat < 0x80 then quotedChar quote (Char.ofNat b.toNat)
  else '\\' :: 'x' :: padded 16 2 b.toNat

/-- Bytes as a quoted literal, marked by a leading `b`. -/
def quotedBytes (bytes : List UInt8) : String :=
  let quote := quoteFor (bytes.contains 0x27) (bytes.contains 0x22)
  String.ofList ('b' :: quote :: bytes.flatMap (quotedByte quote) ++ [quote])

end DeferredLog.Text
