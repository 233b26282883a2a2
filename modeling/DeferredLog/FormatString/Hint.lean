/-!
# Display hints

A hint changes how a value is displayed and never how it is read. It is written
`[#][0][width]kind`; `Hint.radix?` is the base of the kinds that show an integer in another base.
-/

namespace DeferredLog

/-- What a hint asks for. -/
inductive HintKind where
  | lowerHex | upperHex | binary | octal
  | lowerExp | upperExp
  | ascii | debug | micros
  deriving DecidableEq, Repr

namespace HintKind

/-- The symbol of a kind. -/
def symbol : HintKind → String
  | lowerHex => "x"
  | upperHex => "X"
  | binary => "b"
  | octal => "o"
  | lowerExp => "e"
  | upperExp => "E"
  | ascii => "a"
  | debug => "?"
  | micros => "us"

/-- The kind of a symbol; microseconds may also be written with a micro sign. -/
def ofSymbol? : List Char → Option HintKind
  | ['x'] => some lowerHex
  | ['X'] => some upperHex
  | ['b'] => some binary
  | ['o'] => some octal
  | ['e'] => some lowerExp
  | ['E'] => some upperExp
  | ['a'] => some ascii
  | ['?'] => some debug
  | ['u', 's'] | ['\u00b5', 's'] => some micros
  | _ => none

/-- The base of an integer display. -/
def radix? : HintKind → Option Nat
  | lowerHex | upperHex => some 16
  | binary => some 2
  | octal => some 8
  | _ => none

/-- The mark of a base, shown on demand. -/
def radixMark : HintKind → String
  | lowerHex | upperHex => "0x"
  | binary => "0b"
  | octal => "0o"
  | _ => ""

end HintKind

/-- A display hint; width 0 stands for no width. -/
structure Hint where
  kind : HintKind
  alternate : Bool
  zeroPad : Bool
  width : Nat
  deriving DecidableEq, Repr

end DeferredLog
