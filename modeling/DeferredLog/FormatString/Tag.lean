import DeferredLog.FormatString.Basic

/-!
# Reading type tags and hints

The parts of a directive's body. `ArgType.parse` reads what follows `=` and `Hint.parse` what follows
`:`. Numbers in them may use the decimal digits of any script, and any number of digits, which is an
idealisation; a width starts with an ASCII digit other than zero. A hint may be followed by one line feed.
-/

namespace DeferredLog

open Text

/-- Splits off a numeral of at least one digit. -/
def Text.takeNumeral? (cs : List Char) : Option (List Char × List Char) :=
  match cs.takeWhile isDigit with
  | [] => none
  | ds => some (ds, cs.dropWhile isDigit)

/-- A numeral that is followed by exactly `tail`. -/
def Text.numeralBefore? (tail cs : List Char) : Option (List Char) :=
  match takeNumeral? cs with
  | some (ds, rest) => if rest = tail then some ds else none
  | none => none

/-! ## Types -/

namespace ArgType

/-- The length in a byte array tag `[u8; length]`. -/
def byteArrayLength? (tag : List Char) : Option Nat :=
  match "[u8;".toList.isPrefixOf? tag with
  | some rest => (numeralBefore? [']'] (rest.dropWhile isBlank)).map digitsValue
  | none => none

/-- The numeral in a fixed entry tag `@index`. -/
def indexTag? : List Char → Option IndexTag
  | '@' :: ds => if h : isNumeral ds = true then some ⟨ds, h⟩ else none
  | _ => none

/-- The backing integer that a bit range tag starts with. -/
def backing? : List Char → Option (Backing × List Char)
  | 'u' :: '8' :: '[' :: rest => some (.w8, rest)
  | 'u' :: '1' :: '6' :: '[' :: rest => some (.w16, rest)
  | 'u' :: '3' :: '2' :: '[' :: rest => some (.w32, rest)
  | 'u' :: '6' :: '4' :: '[' :: rest => some (.w64, rest)
  | _ => none

/-- The numbers in a bit range tag `uN[low..=high]`, not yet checked. -/
def bitRange? (tag : List Char) : Option (Backing × Nat × Nat) :=
  match backing? tag with
  | none => none
  | some (backing, rest) =>
    match takeNumeral? rest with
    | none => none
    | some (low, rest) =>
      match "..=".toList.isPrefixOf? rest with
      | none => none
      | some rest =>
        match numeralBefore? [']'] rest with
        | none => none
        | some high => some (backing, digitsValue low, digitsValue high)

/-- The bit range type with the given bounds; `tag` is the text that named it. -/
def ofBitRange (tag : String) (backing : Backing) (low high : Nat) :
    Except FormatError ArgType :=
  if hl : low < high then
    if hh : high < backing.bits then .ok (bitfield ⟨backing, low, high, hl, hh⟩)
    else .error (.wideBitRange tag backing.bits)
  else .error (.emptyBitRange tag)

/-- Reads a tag without white space around it. -/
def parseTag (tag : List Char) : Except FormatError ArgType :=
  match primitives.find? fun p => p.name.toList = tag with
  | some p => .ok p
  | none =>
    match byteArrayLength? tag with
    | some n => .ok (byteArray n)
    | none =>
      match indexTag? tag with
      | some t => .ok (nested t)
      | none =>
        match bitRange? tag with
        | some (backing, low, high) => ofBitRange (String.ofList tag) backing low high
        | none => .error (.unknownType (String.ofList tag))

/-- Reads a type; white space around its tag does not count. -/
def parse (text : List Char) : Except FormatError ArgType := parseTag (trim isBlank text)

end ArgType

/-! ## Hints -/

namespace Hint

/-- Takes a flag off the front of a text. -/
def takeFlag (flag : Char) : List Char → Bool × List Char
  | c :: rest => if c = flag then (true, rest) else (false, c :: rest)
  | [] => (false, [])

/-- Takes a width off the front of a text, 0 if there is none. -/
def takeWidth : List Char → Nat × List Char
  | c :: rest =>
    if '1' ≤ c ∧ c ≤ '9' then
      (digitsValue (c :: rest.takeWhile isDigit), rest.dropWhile isDigit)
    else (0, c :: rest)
  | [] => (0, [])

/-- A text without one final line feed. -/
def dropFinalLineFeed (cs : List Char) : List Char :=
  if cs.getLast? = some '\n' then cs.dropLast else cs

/-- Reads a hint. -/
def parse (text : List Char) : Except FormatError Hint :=
  let (alternate, rest) := takeFlag '#' text
  let (zeroPad, rest) := takeFlag '0' rest
  let (width, rest) := takeWidth rest
  match HintKind.ofSymbol? (dropFinalLineFeed rest) with
  | some kind => .ok ⟨kind, alternate, zeroPad, width⟩
  | none => .error (.unknownHint (String.ofList text))

end Hint

end DeferredLog
