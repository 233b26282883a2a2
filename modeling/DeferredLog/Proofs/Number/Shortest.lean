import DeferredLog.Proofs.Number.Neighbours
import Mathlib.Tactic.IntervalCases

/-!
# The nearest decimal suffices

Of the two neighbours of a number of binary32 among the decimals of so many digits, the nearest one is read
as the number if one of them is: the ratios that are read as the number lie symmetrically around it, except
at powers of two, which leave finitely many cases. Three of these are exceptions, each with eight digits.
For all other numbers a decimal of so many digits is read as the number if and only if the nearest one is:

    other.single? = some d → other.precision ≤ count → (nearest count d).single? = some d
                                                                        (single?_nearest_of_precision_le)

Nine digits always suffice.
-/

namespace DeferredLog

open BinaryFormat (binary32 binary64)

/-- Where a neighbour with `count` digits is read as the number, the nearest one is. -/
def NearestSuffices (d : Dyadic) (count : ℕ) : Prop :=
  (Decimal.otherNeighbour count d.toRatio).single? = some d →
    (Decimal.nearest count d.toRatio).single? = some d

instance (d : Dyadic) (count : ℕ) : Decidable (NearestSuffices d count) :=
  inferInstanceAs (Decidable (_ → _))

/-- The numbers that only the farther one of the neighbours with eight digits is read as. -/
def overlooked : List Dyadic := [⟨2 ^ 23, -119⟩, ⟨2 ^ 23, 64⟩, ⟨2 ^ 23, 67⟩]

theorem Ratio.exists_val {x : ℚ} (hx : 0 ≤ x) : ∃ r : Ratio, 0 < r.den ∧ r.val = x := by
  refine ⟨⟨x.num.toNat, x.den⟩, x.den_pos, ?_⟩
  have hnum : ((x.num.toNat : ℤ) : ℚ) = x.num := by
    rw [Int.toNat_of_nonneg (Rat.num_nonneg.mpr hx)]
  rw [Ratio.val, ← Int.cast_natCast, hnum, Rat.num_div_den]

namespace IsSingle

open Decimal

variable {d : Dyadic} {other : Decimal} {count : ℕ}

theorem num_pos (h : IsSingle d) : 0 < d.toRatio.num := Dyadic.num_toRatio_pos h.pos

theorem single?_self (h : IsSingle d) : d.toRatio.single? = some d :=
  Ratio.single?_of_val_eq h d.den_toRatio_pos d.val_toRatio

/-! ## Many and few digits -/

/-- A decimal with many digits is close enough to be read as the number. -/
theorem single?_nearest_of_le (h : IsSingle d) (hcount : 1 ≤ count)
    (hle : 4 * d.significand ≤ 10 ^ (count - 1)) : (nearest count d.toRatio).single? = some d := by
  have hs : (0 : ℚ) < d.significand := by exact_mod_cast h.pos
  have hle' : (4 * d.significand : ℚ) ≤ 10 ^ (count - 1) := by exact_mod_cast hle
  have hpow : (0 : ℚ) < 10 ^ lastPlace count d.toRatio := by positivity
  have hplace : 4 * (10 : ℚ) ^ lastPlace count d.toRatio ≤ 2 ^ d.exponent := by
    have hval := pow_le_val h.num_pos d.den_toRatio_pos hcount
    rw [Dyadic.val_toRatio, Dyadic.val] at hval
    refine le_of_mul_le_mul_left ?_ hs
    calc (d.significand : ℚ) * (4 * 10 ^ lastPlace count d.toRatio)
        = 4 * d.significand * 10 ^ lastPlace count d.toRatio := by ring
      _ ≤ 10 ^ (count - 1) * 10 ^ lastPlace count d.toRatio := by gcongr
      _ ≤ d.significand * 2 ^ d.exponent := hval
  have hclose := @abs_nearest_sub_le d.toRatio count d.den_toRatio_pos
  have hstep := pow_eq_eighth d.exponent
  refine Ratio.single?_of_close h (den_toRatio_pos _) ?_
  rw [val_toRatio, ← Dyadic.val_toRatio d]
  linarith

/-- With few digits the farther neighbour is more than a step away. -/
theorem lt_of_single?_otherNeighbour (h : IsSingle d) (hcount : 1 ≤ count)
    (hother : (otherNeighbour count d.toRatio).single? = some d) : d.significand < 2 * 10 ^ count := by
  obtain ⟨f, hf⟩ := exists_neighbours h.num_pos d.den_toRatio_pos hcount
  have hpow : (0 : ℚ) < 2 ^ d.exponent := by positivity
  have hsum := hf.abs_add_abs
  have hnear := @abs_nearest_sub_le d.toRatio count d.den_toRatio_pos
  have hfar := (Ratio.close_of_single? h (den_toRatio_pos _) hother).2
  rw [val_toRatio, ← Dyadic.val_toRatio d] at hfar
  have hval := val_lt_pow h.num_pos d.den_toRatio_pos hcount
  rw [Dyadic.val_toRatio, Dyadic.val] at hval
  have hlt : (d.significand : ℚ) * 2 ^ d.exponent < 2 * 10 ^ count * 2 ^ d.exponent :=
    calc (d.significand : ℚ) * 2 ^ d.exponent < 10 ^ count * 10 ^ lastPlace count d.toRatio := hval
      _ ≤ 10 ^ count * (2 * 2 ^ d.exponent) := by
        gcongr
        linarith
      _ = 2 * 10 ^ count * 2 ^ d.exponent := by ring
  exact_mod_cast lt_of_mul_lt_mul_right hlt hpow.le

/-! ## Between powers of two -/

theorem nearestSuffices_of_lt (h : IsSingle d) {k : ℕ} (hlow : 2 ^ k < d.significand)
    (hhigh : d.significand < 2 ^ (k + 1)) (hcount : 1 ≤ count) : NearestSuffices d count := by
  intro hother
  obtain ⟨f, hf⟩ := exists_neighbours h.num_pos d.den_toRatio_pos hcount
  have hden := d.den_toRatio_pos
  have hfar := (abs_lt.mp (Ratio.close_of_single? h (den_toRatio_pos _) hother).2).2
  have hval := h.pow_exponent_le
  rw [val_toRatio] at hfar
  -- the mirror image of the other neighbour
  obtain ⟨r, hr, hmirror⟩ := Ratio.exists_val (x := 2 * d.val - (otherNeighbour count d.toRatio).val)
    (by linarith)
  have hsingle : r.single? = some d := by
    refine Ratio.single?_mirror h hlow hhigh (den_toRatio_pos _) hr ?_ hother
    rw [val_toRatio, hmirror]
    ring
  have hbetween := hf.nearest_between hden
  rw [Dyadic.val_toRatio, ← hmirror] at hbetween
  rcases hbetween with ⟨hle, hge⟩ | ⟨hle, hge⟩
  · refine Ratio.single?_between h.pos hr (den_toRatio_pos _) hden hsingle h.single?_self ?_ ?_
    · rwa [val_toRatio]
    · rwa [val_toRatio, Dyadic.val_toRatio]
  · refine Ratio.single?_between h.pos hden (den_toRatio_pos _) hr h.single?_self hsingle ?_ ?_
    · rwa [val_toRatio, Dyadic.val_toRatio]
    · rwa [val_toRatio]

/-! ## Powers of two -/

/-- Powers of two with the least exponent. -/
theorem nearestSuffices_least :
    ∀ k < 23, ∀ count < 9, 10 ^ (count - 1) < 4 * 2 ^ k → 2 ^ k < 2 * 10 ^ count →
      NearestSuffices ⟨2 ^ k, -149⟩ count := by
  decide +kernel

/-- All other powers of two, as far as neither many nor few digits settle them. -/
theorem nearestSuffices_long :
    ∀ n < (254 : ℕ), ∀ count ∈ [7, 8], count = 8 ∧ (⟨2 ^ 23, -149 + n⟩ : Dyadic) ∈ overlooked ∨
      NearestSuffices ⟨2 ^ 23, -149 + n⟩ count := by
  decide +kernel

theorem nearestSuffices_pow (h : IsSingle d) {k : ℕ} (hs : d.significand = 2 ^ k) (hd : d ∉ overlooked)
    (hcount : 1 ≤ count) : NearestSuffices d count := by
  obtain ⟨s, e⟩ := d
  obtain rfl : s = 2 ^ k := hs
  have hk : k < 24 := (Nat.pow_lt_pow_iff_right (by decide : 1 < 2)).mp h.significand_lt
  have hleast : -149 ≤ e := h.least_le
  have hexp : e ≤ 104 := h.exponent_le
  intro hother
  have hfew : 2 ^ k < 2 * 10 ^ count := h.lt_of_single?_otherNeighbour hcount hother
  rcases Nat.lt_or_ge (10 ^ (count - 1)) (4 * 2 ^ k) with hmany | hmany
  · have hcount' : count < 9 := by
      have hle : 2 ^ k ≤ 2 ^ 23 := Nat.pow_le_pow_right Nat.two_pos (Nat.lt_succ_iff.mp hk)
      have hpow : 10 ^ (count - 1) < 10 ^ 8 := by omega
      have := (Nat.pow_lt_pow_iff_right (by decide : 1 < 10)).mp hpow
      omega
    rcases Nat.lt_succ_iff_lt_or_eq.mp hk with hk' | rfl
    · have hshort : ¬ 2 ^ 23 ≤ 2 ^ k := by
        rw [Nat.pow_le_pow_iff_right (by decide)]
        omega
      obtain rfl : e = -149 := h.long.resolve_right hshort
      exact nearestSuffices_least k hk' count hcount' hmany hfew hother
    · obtain ⟨n, hn⟩ := Int.eq_ofNat_of_zero_le (show 0 ≤ e + 149 by omega)
      obtain rfl : e = -149 + n := by omega
      have hseven : count ∈ [7, 8] := by
        interval_cases count <;> simp_all
      exact (nearestSuffices_long n (by omega) count hseven).resolve_left (fun h => hd h.2) hother
  · exact h.single?_nearest_of_le hcount hmany

/-! ## All numbers -/

theorem nearestSuffices (h : IsSingle d) (hd : d ∉ overlooked) (hcount : 1 ≤ count) :
    NearestSuffices d count := by
  rcases Nat.eq_or_lt_of_le (Nat.log2_self_le h.pos.ne') with heq | hlt
  · exact h.nearestSuffices_pow heq.symm hd hcount
  · exact h.nearestSuffices_of_lt hlt Nat.lt_log2_self hcount

theorem single?_nearest_of_precision_le (h : IsSingle d) (hd : d ∉ overlooked) (hcount : 1 ≤ count)
    (hother : other.single? = some d) (hprecision : other.precision ≤ count) :
    (nearest count d.toRatio).single? = some d := by
  obtain ⟨f, hf⟩ := exists_neighbours h.num_pos d.den_toRatio_pos hcount
  exact (hf.of_isInterval (isInterval_single? h.pos) hcount d.den_toRatio_pos h.single?_self hprecision
    hother).elim id (h.nearestSuffices hd hcount)

theorem single?_nearest_nine (h : IsSingle d) : (nearest 9 d.toRatio).single? = some d := by
  have hlt := h.significand_lt
  exact h.single?_nearest_of_le (by decide) (by omega)

end IsSingle

end DeferredLog
