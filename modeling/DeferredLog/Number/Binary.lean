import DeferredLog.Number.Ratio

/-!
# Binary floating point

IEEE 754 binary interchange formats on their bit patterns. `BinaryFormat.decode` gives the exact value
of a pattern and `BinaryFormat.nearest?` the number of the format nearest to a rational, a tie going to
the even significand; there is none beyond the largest number.
-/

namespace DeferredLog

/-- A binary interchange format. -/
structure BinaryFormat where
  fractionBits : Nat
  exponentBits : Nat
  deriving DecidableEq, Repr

/-- A nonnegative binary number `significand * 2 ^ exponent`. -/
structure Dyadic where
  significand : Nat
  exponent : Int
  deriving DecidableEq, Repr

/-- The value as a rational. -/
def Dyadic.toRatio (d : Dyadic) : Ratio := (Ratio.ofNat d.significand).scale 2 d.exponent

/-- What a bit pattern stands for. -/
inductive Binary where
  | nan
  | infinite (negative : Bool)
  | finite (negative : Bool) (magnitude : Dyadic)
  deriving DecidableEq, Repr

namespace BinaryFormat

/-- Single precision. -/
def binary32 : BinaryFormat := ⟨23, 8⟩

/-- Double precision. -/
def binary64 : BinaryFormat := ⟨52, 11⟩

/-- The number of fractions; a significand of full length adds its leading bit, which is as much. -/
def fractions (F : BinaryFormat) : Nat := Nat.pow 2 F.fractionBits

/-- The number of values of the exponent field; the last is kept for infinities and NaN. -/
def fields (F : BinaryFormat) : Nat := Nat.pow 2 F.exponentBits

/-- The bias of the exponent field, which is also the greatest exponent of a leading bit. -/
def bias (F : BinaryFormat) : Nat := F.fields / 2 - 1

/-- The exponent of the last place of subnormal numbers. -/
def leastExponent (F : BinaryFormat) : Int := 1 - (F.bias : Int) - F.fractionBits

/-- The value of a bit pattern. -/
def decode (F : BinaryFormat) (pattern : Nat) : Binary :=
  let fraction := pattern % F.fractions
  let field := pattern / F.fractions % F.fields
  let negative := pattern / F.fractions / F.fields % 2 = 1
  if field = F.fields - 1 then
    if fraction = 0 then .infinite negative else .nan
  else if field = 0 then .finite negative ⟨fraction, F.leastExponent⟩
  else .finite negative ⟨F.fractions + fraction, F.leastExponent + (field - 1 : Nat)⟩

/-- The magnitude of the format nearest to a rational, its significand as long as the format allows. -/
def nearest? (F : BinaryFormat) (r : Ratio) : Option Dyadic :=
  if r.num = 0 then some ⟨0, F.leastExponent⟩
  else
    let exponent := max (r.log2 - F.fractionBits) F.leastExponent
    let significand := (r.scale 2 (-exponent)).round
    let d : Dyadic :=
      if significand = 2 * F.fractions then ⟨F.fractions, exponent + 1⟩
      else ⟨significand, exponent⟩
    if d.exponent + F.fractionBits ≤ F.bias then some d else none

/-- The bit pattern of a number that `decode` or `nearest?` yields; NaN has its plainest pattern. -/
def encode (F : BinaryFormat) : Binary → Nat
  | .nan => (F.fields - 1) * F.fractions + F.fractions / 2
  | .infinite negative => sign negative + (F.fields - 1) * F.fractions
  | .finite negative d =>
    if d.significand < F.fractions then sign negative + d.significand
    else
      sign negative + (d.exponent - F.leastExponent + 1).toNat * F.fractions +
        (d.significand - F.fractions)
where
  /-- The sign bit. -/
  sign (negative : Bool) : Nat := if negative then F.fields * F.fractions else 0

/-- The pattern in the wider format `G` of the number that `pattern` stands for in `F`. -/
def widen (F G : BinaryFormat) (pattern : Nat) : Nat :=
  match F.decode pattern with
  | .finite negative d => G.encode (.finite negative ((G.nearest? d.toRatio).getD d))
  | other => G.encode other

end BinaryFormat

end DeferredLog
