/-!
# Nonnegative rationals and rounding

A rational is kept as numerator and denominator, so that rounding to a grid is one division.
`Ratio.round` rounds to the nearest natural number and a tie to the even one; `Ratio.log2` and
`Ratio.log10` find the power of the base at or below a positive rational.
-/

namespace DeferredLog

/-- The rational `num / den`; `den` is positive wherever one is built. -/
structure Ratio where
  num : Nat
  den : Nat
  deriving DecidableEq, Repr

namespace Ratio

/-- A natural number. -/
def ofNat (n : Nat) : Ratio := ⟨n, 1⟩

/-- `r * b ^ k`. -/
def scale (r : Ratio) (b : Nat) (k : Int) : Ratio :=
  if 0 ≤ k then ⟨r.num * Nat.pow b k.toNat, r.den⟩ else ⟨r.num, r.den * Nat.pow b (-k).toNat⟩

/-- The greatest natural number at or below. -/
def floor (r : Ratio) : Nat := r.num / r.den

/-- The nearest natural number, the even one of two. -/
def round (r : Ratio) : Nat :=
  let q := r.num / r.den
  let twice := 2 * (r.num % r.den)
  if twice < r.den then q
  else if r.den < twice then q + 1
  else if q % 2 = 0 then q else q + 1

/-- Whether a rational is at least one. -/
def atLeastOne (r : Ratio) : Bool := r.den ≤ r.num

/-- The greatest `k` with `b ^ k` at or below `r`, given that it is `guess` or `guess - 1`. -/
def logFrom (b : Nat) (guess : Int) (r : Ratio) : Int :=
  if (r.scale b (-guess)).atLeastOne then guess else guess - 1

/-- The greatest `k` with `2 ^ k` at or below a positive rational. -/
def log2 (r : Ratio) : Int := logFrom 2 ((r.num.log2 : Int) - r.den.log2) r

/-- The number of decimal digits. -/
def decimalLength (n : Nat) : Nat := (Nat.toDigits 10 n).length

/-- The greatest `k` with `10 ^ k` at or below a positive rational. -/
def log10 (r : Ratio) : Int := logFrom 10 ((decimalLength r.num : Int) - decimalLength r.den) r

end Ratio

end DeferredLog
