import DeferredLog.Json.Basic

/-!
# Reading JSON

A strict reader: no trailing commas, no comments, no raw control characters in strings. The words
`NaN`, `Infinity` and `-Infinity` are read as numbers. A pair of escaped surrogates is one character;
one without its partner becomes U+FFFD. Every step of the reader consumes at least one character, so
the length of the text bounds the depth of its recursion. There is no other limit on how deep values are
nested, nor on the digits of a number; both are idealisations.
-/

namespace DeferredLog.Json

/-- White space between tokens. -/
def isSpace (c : Char) : Bool := c = ' ' || c = '\t' || c = '\n' || c = '\r'

/-- Skips white space. -/
def skip (cs : List Char) : List Char := cs.dropWhile isSpace

/-! ## Strings -/

/-- The value of a hexadecimal digit. -/
def hexDigit? (c : Char) : Option Nat :=
  if '0' ≤ c ∧ c ≤ '9' then some (c.toNat - 48)
  else if 'a' ≤ c ∧ c ≤ 'f' then some (c.toNat - 87)
  else if 'A' ≤ c ∧ c ≤ 'F' then some (c.toNat - 55)
  else none

/-- Reads four hexadecimal digits. -/
def hexQuad? : List Char → Option (Nat × List Char)
  | a :: b :: c :: d :: rest =>
    match hexDigit? a, hexDigit? b, hexDigit? c, hexDigit? d with
    | some a, some b, some c, some d => some (((a * 16 + b) * 16 + c) * 16 + d, rest)
    | _, _, _, _ => none
  | _ => none

/-- The character that a letter after a backslash stands for. -/
def escape? : Char → Option Char
  | '"' => some '"'
  | '\\' => some '\\'
  | '/' => some '/'
  | 'b' => some '\x08'
  | 'f' => some '\x0c'
  | 'n' => some '\n'
  | 'r' => some '\r'
  | 't' => some '\t'
  | _ => none

/-- The low surrogate that is escaped at the front of a text. -/
def lowSurrogate? : List Char → Option (Nat × List Char)
  | '\\' :: 'u' :: rest =>
    match hexQuad? rest with
    | some (n, tail) => if 0xdc00 ≤ n ∧ n ≤ 0xdfff then some (n, tail) else none
    | none => none
  | _ => none

/-- Reads the character whose escape starts with the code unit `unit`. -/
def escapedUnit (unit : Nat) (rest : List Char) : Char × List Char :=
  if 0xd800 ≤ unit ∧ unit ≤ 0xdbff then
    match lowSurrogate? rest with
    | some (low, tail) => (Char.ofNat (0x10000 + (unit - 0xd800) * 0x400 + (low - 0xdc00)), tail)
    | none => ('\uFFFD', rest)
  else if 0xdc00 ≤ unit ∧ unit ≤ 0xdfff then ('\uFFFD', rest)
  else (Char.ofNat unit, rest)

/-- Reads a string up to its closing quote; the opening one is read already. -/
def stringBody? : Nat → List Char → Option (List Char × List Char)
  | 0, _ => none
  | _ + 1, [] => none
  | fuel + 1, c :: rest =>
    if c = '"' then some ([], rest)
    else if c = '\\' then
      match rest with
      | 'u' :: digits =>
        match hexQuad? digits with
        | none => none
        | some (unit, tail) =>
          let (e, tail) := escapedUnit unit tail
          (stringBody? fuel tail).map fun (cs, t) => (e :: cs, t)
      | letter :: tail =>
        match escape? letter with
        | none => none
        | some e => (stringBody? fuel tail).map fun (cs, t) => (e :: cs, t)
      | [] => none
    else if c.toNat < 0x20 then none
    else (stringBody? fuel rest).map fun (cs, t) => (c :: cs, t)

/-! ## Numbers -/

/-- Splits off a run of ASCII digits. -/
def spanDigits (cs : List Char) : List Char × List Char :=
  (cs.takeWhile Char.isDigit, cs.dropWhile Char.isDigit)

/-- Reads the whole part of a number: a zero, or digits that do not start with one. -/
def wholePart? : List Char → Option (List Char × List Char)
  | '0' :: rest => some (['0'], rest)
  | cs =>
    match spanDigits cs with
    | ([], _) => none
    | split => some split

/-- Reads a fraction, if a point and a digit follow. -/
def fractionPart : List Char → List Char × List Char
  | '.' :: rest =>
    match spanDigits rest with
    | ([], _) => ([], '.' :: rest)
    | split => split
  | cs => ([], cs)

/-- Reads the sign and digits of an exponent, if there are any. -/
def exponentDigits? (rest : List Char) : Option (Int × List Char) :=
  let (negative, digits) :=
    match rest with
    | '+' :: r => (false, r)
    | '-' :: r => (true, r)
    | r => (false, r)
  match spanDigits digits with
  | ([], _) => none
  | (ds, tail) =>
    let n : Int := Nat.ofDigitChars 10 ds 0
    some (if negative then -n else n, tail)

/-- Reads an exponent, if an exponent mark and a digit follow. -/
def exponentPart : List Char → Option Int × List Char
  | [] => (none, [])
  | c :: rest =>
    if c = 'e' ∨ c = 'E' then
      match exponentDigits? rest with
      | some (n, tail) => (some n, tail)
      | none => (none, c :: rest)
    else (none, c :: rest)

/-- The number of binary64 nearest to `digits * 10 ^ exponent`; far from 1 it is zero or infinite. -/
def toBinary (negative : Bool) (digits : Nat) (exponent : Int) : Binary :=
  let magnitude : Int := exponent + Ratio.decimalLength digits
  if digits = 0 ∨ magnitude < -400 then .finite negative ⟨0, BinaryFormat.binary64.leastExponent⟩
  else if 400 < magnitude then .infinite negative
  else
    match (Decimal.mk digits exponent).read with
    | some d => .finite negative d
    | none => .infinite negative

/-- Reads a number without its sign. -/
def unsigned? (negative : Bool) (cs : List Char) : Option (Json × List Char) :=
  match wholePart? cs with
  | none => none
  | some (whole, rest) =>
    let (fraction, rest) := fractionPart rest
    let (exponent, rest) := exponentPart rest
    let digits := Nat.ofDigitChars 10 (whole ++ fraction) 0
    if fraction.isEmpty && exponent.isNone then
      some (integer (if negative then -(digits : Int) else digits), rest)
    else
      some (number (toBinary negative digits (exponent.getD 0 - fraction.length)), rest)

/-- The values that are single words. -/
def words : List (List Char × Json) :=
  [("null".toList, null), ("true".toList, bool true), ("false".toList, bool false),
   ("NaN".toList, number .nan), ("Infinity".toList, number (.infinite false)),
   ("-Infinity".toList, number (.infinite true))]

/-- Reads a word. -/
def word? (cs : List Char) : Option (Json × List Char) :=
  words.findSome? fun (w, v) => (w.isPrefixOf? cs).map fun rest => (v, rest)

/-- Reads a word or a number. -/
def scalar? (cs : List Char) : Option (Json × List Char) :=
  match word? cs with
  | some r => some r
  | none =>
    match cs with
    | '-' :: rest => unsigned? true rest
    | _ => unsigned? false cs

/-! ## Values -/

mutual

/-- Reads a value that starts at the front of the text. -/
def value? : Nat → List Char → Option (Json × List Char)
  | 0, _ => none
  | fuel + 1, cs =>
    match cs with
    | '"' :: rest => (stringBody? (rest.length + 1) rest).map fun (s, t) => (string (String.ofList s), t)
    | '[' :: rest =>
      match skip rest with
      | ']' :: tail => some (array [], tail)
      | items => (items? fuel items).map fun (vs, t) => (array vs, t)
    | '{' :: rest =>
      match skip rest with
      | '}' :: tail => some (object [], tail)
      | members => (members? fuel [] members).map fun (vs, t) => (object vs, t)
    | _ => scalar? cs

/-- Reads one or more items up to the closing bracket. -/
def items? : Nat → List Char → Option (List Json × List Char)
  | 0, _ => none
  | fuel + 1, cs =>
    match value? fuel cs with
    | none => none
    | some (v, rest) =>
      match skip rest with
      | ']' :: tail => some ([v], tail)
      | ',' :: tail => (items? fuel (skip tail)).map fun (vs, t) => (v :: vs, t)
      | _ => none

/-- Reads one or more members up to the closing brace; `seen` holds those read before. -/
def members? : Nat → List (String × Json) → List Char → Option (List (String × Json) × List Char)
  | 0, _, _ => none
  | fuel + 1, seen, cs =>
    match cs with
    | '"' :: rest =>
      match stringBody? (rest.length + 1) rest with
      | none => none
      | some (key, rest) =>
        match skip rest with
        | ':' :: rest =>
          match value? fuel (skip rest) with
          | none => none
          | some (v, rest) =>
            let seen := enter (String.ofList key) v seen
            match skip rest with
            | '}' :: tail => some (seen, tail)
            | ',' :: tail => members? fuel seen (skip tail)
            | _ => none
        | _ => none
    | _ => none

end

/-- Reads a text that holds one value and nothing else. -/
def parse? (text : List Char) : Option Json :=
  let cs := skip text
  match value? (cs.length + 1) cs with
  | some (v, rest) => if (skip rest).isEmpty then some v else none
  | none => none

end DeferredLog.Json
