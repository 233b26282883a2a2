import DeferredLog.FormatString.ArgType
import DeferredLog.FormatString.Hint
import DeferredLog.Number.Decimal

/-!
# Floating-point numbers as text

A number of binary64 is shown by the shortest decimal that reads back. A number of binary32 is first
replaced by the first of its 1, 2, … 9 digit roundings which reads back as it, so that it is not shown
with the digits of its exact value. The search has no answer if a rounding on its way lies beyond the
largest number of binary32.
-/

namespace DeferredLog

open BinaryFormat (binary32 binary64)

/-- A floating-point value as it travels: a bit pattern of its type. -/
inductive FloatValue where
  | f32 (pattern : UInt32)
  | f64 (pattern : UInt64)
  deriving DecidableEq

namespace FloatValue

/-- The type of a value. -/
def type : FloatValue → FloatType
  | f32 _ => .f32
  | f64 _ => .f64

/-- The pattern of the same number in binary64. -/
def doublePattern : FloatValue → Nat
  | f32 p => binary32.widen binary64 p.toNat
  | f64 p => p.toNat

/-- The number in binary64. -/
def toDouble (v : FloatValue) : Binary := binary64.decode v.doublePattern

/-- Equality of numbers: NaN equals nothing and both zeros are equal. -/
def numericallyEqual (a b : FloatValue) : Bool :=
  match a.toDouble, b.toDouble with
  | .nan, _ | _, .nan => false
  | .finite _ ⟨0, _⟩, .finite _ ⟨0, _⟩ => true
  | x, y => x = y

end FloatValue

namespace Display

/-! ## The number shown for a binary32 value -/

/-- The first rounding of `d` to `count`, `count + 1`, … digits (`tries` of them) that reads back as `d`
in binary32; `d` itself if none does. The outer `none` tells that a rounding lies out of range. -/
def shortenFrom (d : Dyadic) (count : Nat) : Nat → Option (Option Dyadic)
  | 0 => some (binary64.nearest? d.toRatio)
  | tries + 1 =>
    match (Decimal.nearest count d.toRatio).read with
    | none => none
    | some candidate =>
      match binary32.nearest? candidate.toRatio with
      | none => none
      | some single =>
        if single = d then some (some candidate) else shortenFrom d (count + 1) tries

/-- The number of binary64 shown for a magnitude of binary32. -/
def shorten (d : Dyadic) : Option Dyadic :=
  if d.significand = 0 then some d else (shortenFrom d 1 9).join

/-! ## Text -/

/-- The first decimal of `count`, `count + 1`, … digits that reads back as `d`, or one of eighteen
digits. -/
def scientificFrom (d : Dyadic) (count : Nat) : Nat → Decimal
  | 0 => Decimal.nearest count d.toRatio
  | tries + 1 =>
    let near := Decimal.nearest count d.toRatio
    if near.read = some d then near else scientificFrom d (count + 1) tries

/-- A magnitude with an exponent. -/
def scientificText (mark : Char) (d : Dyadic) : List Char :=
  let decimal := if d.significand = 0 then ⟨0, 0⟩ else scientificFrom d 1 17
  let (digits, exponent) := decimal.significant
  Decimal.scientific .compact mark digits exponent

/-- A magnitude under a hint. -/
def magnitudeText (d : Dyadic) (hint : Option Hint) : List Char :=
  match hint.map Hint.kind with
  | some .lowerExp => scientificText 'e' d
  | some .upperExp => scientificText 'E' d
  | _ => (Decimal.shortest d).text .compact

/-- A number under a hint; `show?` picks the magnitude to display. -/
def binaryText (show? : Dyadic → Option Dyadic) (hint : Option Hint) : Binary → Option (List Char)
  | .nan => some ['N', 'a', 'N']
  | .infinite negative => some (if negative then ['-', 'i', 'n', 'f'] else ['i', 'n', 'f'])
  | .finite negative d =>
    (show? d).map fun d => (if negative then ['-'] else []) ++ magnitudeText d hint

/-- A floating-point value under a hint; none if a rounding lies out of range. -/
def floatText (v : FloatValue) (hint : Option Hint) : Option (List Char) :=
  match v with
  | .f32 p => binaryText shorten hint (binary32.decode p.toNat)
  | .f64 p => binaryText some hint (binary64.decode p.toNat)

end Display

end DeferredLog
