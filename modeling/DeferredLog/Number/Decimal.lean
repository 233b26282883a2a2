import DeferredLog.Number.Binary
import DeferredLog.Text.Numeral

/-!
# Decimal text of binary numbers

`Decimal.nearest` is the decimal with a given number of significant digits nearest to a rational, a tie
going to the even digit. `Decimal.shortest` is the decimal with the fewest digits that reads back as a
given number of binary64, and of those the nearest. `Decimal.text` writes a decimal positionally or
with an exponent.
-/

namespace DeferredLog

/-- The number `digits * 10 ^ exponent`. -/
structure Decimal where
  digits : Nat
  exponent : Int
  deriving DecidableEq, Repr

namespace Decimal

/-- The value as a rational. -/
def toRatio (d : Decimal) : Ratio := (Ratio.ofNat d.digits).scale 10 d.exponent

/-- The number of binary64 that a decimal reads as. -/
def read (d : Decimal) : Option Dyadic := BinaryFormat.binary64.nearest? d.toRatio

/-! ## Choosing digits -/

/-- The exponent of the last of `count` significant digits of a positive rational. -/
def lastPlace (count : Nat) (r : Ratio) : Int := r.log10 - (count - 1 : Nat)

/-- The decimal of `count` significant digits nearest to a positive rational. -/
def nearest (count : Nat) (r : Ratio) : Decimal :=
  ⟨(r.scale 10 (-lastPlace count r)).round, lastPlace count r⟩

/-- The other neighbour of a positive rational on the grid of `count` significant digits. -/
def otherNeighbour (count : Nat) (r : Ratio) : Decimal :=
  let scaled := r.scale 10 (-lastPlace count r)
  ⟨if scaled.round = scaled.floor then scaled.floor + 1 else scaled.floor, lastPlace count r⟩

/-- The first decimal of `count`, `count + 1`, … digits (`tries` of them) that reads back as `d`. -/
def shortestFrom (d : Dyadic) (count : Nat) : Nat → Decimal
  | 0 => nearest count d.toRatio
  | tries + 1 =>
    let near := nearest count d.toRatio
    if near.read = some d then near
    else
      let other := otherNeighbour count d.toRatio
      if other.read = some d then other else shortestFrom d (count + 1) tries

/-- The shortest decimal that reads back as a positive number of binary64; seventeen digits always
suffice. -/
def shortest (d : Dyadic) : Decimal :=
  if d.significand = 0 then ⟨0, 0⟩ else shortestFrom d 1 16

/-! ## Text -/

/-- The significant digits, without zeros at the end, and the exponent of the first of them. -/
def significant (d : Decimal) : List Char × Int :=
  let ds := Text.digits 10 d.digits
  let kept := (ds.reverse.dropWhile (· = '0')).reverse
  (if kept.isEmpty then ['0'] else kept,
   if d.digits = 0 then 0 else d.exponent + (ds.length - 1 : Nat))

/-- Digits with a point after the first, if there are more. -/
def pointed : List Char → List Char
  | d :: e :: ds => d :: '.' :: e :: ds
  | ds => ds

/-- How an exponent is written. -/
inductive ExponentStyle where
  /-- No sign for positive exponents and no padding. -/
  | compact
  /-- Always a sign, and at least two digits. -/
  | signed
  deriving DecidableEq, Repr

/-- The text of an exponent. -/
def ExponentStyle.write (style : ExponentStyle) (exponent : Int) : List Char :=
  match style with
  | .compact => (toString exponent).toList
  | .signed =>
    (if exponent < 0 then '-' else '+') :: Text.padded 10 2 exponent.natAbs

/-- The form with an exponent. -/
def scientific (style : ExponentStyle) (mark : Char) (digits : List Char) (exponent : Int) :
    List Char :=
  pointed digits ++ mark :: style.write exponent

/-- The form without an exponent, with at least one digit on both sides of the point. -/
def positional (digits : List Char) (exponent : Int) : List Char :=
  if exponent < 0 then
    '0' :: '.' :: List.replicate ((-exponent).toNat - 1) '0' ++ digits
  else
    let whole := exponent.toNat + 1
    if digits.length ≤ whole then
      digits ++ List.replicate (whole - digits.length) '0' ++ ['.', '0']
    else digits.take whole ++ '.' :: digits.drop whole

/-- Plain text: positional from `10 ^ -4` up to below `10 ^ 16`. -/
def text (style : ExponentStyle) (d : Decimal) : List Char :=
  let (digits, exponent) := d.significant
  if -4 ≤ exponent ∧ exponent < 16 then positional digits exponent
  else scientific style 'e' digits exponent

end Decimal

end DeferredLog
