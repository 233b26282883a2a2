import DeferredLog.Number.Decimal
import Mathlib.Algebra.Order.Field.Power
import Mathlib.Algebra.Order.Field.Rat
import Mathlib.Data.Rat.Cast.Order
import Mathlib.Tactic.FieldSimp
import Mathlib.Tactic.GCongr
import Mathlib.Tactic.Linarith
import Mathlib.Tactic.NormNum
import Mathlib.Tactic.Positivity
import Mathlib.Tactic.Ring

/-!
# Rounding

Ratios, decimals and binary numbers by their values. Rounding to a grid is off by at most half a step,
logarithms find the power at or below, and a number that is less than half a step beyond the largest one
of a binary format has a nearest number in it.
-/

namespace DeferredLog

/-! ## Ratios -/

namespace Ratio

/-- The number that a ratio stands for. -/
def val (r : Ratio) : ℚ := r.num / r.den

variable {r : Ratio} {b N : ℕ} {k : ℤ}

@[simp] theorem val_ofNat (n : ℕ) : (ofNat n).val = n := by simp [val, ofNat]

theorem num_pos_of_val_pos (h : 0 < r.val) : 0 < r.num := by
  refine Nat.pos_of_ne_zero fun h0 => ?_
  rw [val, h0, Nat.cast_zero, zero_div] at h
  exact lt_irrefl _ h

theorem den_scale_pos (hb : 0 < b) (hd : 0 < r.den) : 0 < (r.scale b k).den := by
  unfold scale
  split
  · exact hd
  · exact Nat.mul_pos hd (Nat.pow_pos hb)

theorem val_scale (hb : 0 < b) (r : Ratio) (k : ℤ) : (r.scale b k).val = r.val * (b : ℚ) ^ k := by
  have hb' : (b : ℚ) ≠ 0 := by exact_mod_cast hb.ne'
  unfold scale
  split
  · next hk =>
    obtain ⟨n, rfl⟩ := Int.eq_ofNat_of_zero_le hk
    simp only [val, Int.toNat_natCast, Nat.pow_eq, Nat.cast_mul, Nat.cast_pow, zpow_natCast]
    ring
  · next hk =>
    obtain ⟨n, hn⟩ := Int.eq_ofNat_of_zero_le (show 0 ≤ -k by omega)
    obtain rfl : k = -n := by omega
    simp only [val, neg_neg, Int.toNat_natCast, Nat.pow_eq, Nat.cast_mul, Nat.cast_pow, zpow_neg,
      zpow_natCast]
    rw [div_mul_eq_div_div, div_eq_mul_inv _ ((b : ℚ) ^ n)]

theorem abs_round_sub_val (hd : 0 < r.den) : |(r.round : ℚ) - r.val| ≤ 1 / 2 := by
  have hround : 2 * (r.round * r.den) ≤ 2 * r.num + r.den ∧
      2 * r.num ≤ 2 * (r.round * r.den) + r.den := by
    have hdiv := Nat.div_add_mod r.num r.den
    have hmod := Nat.mod_lt r.num hd
    rw [Nat.mul_comm] at hdiv
    have hsucc := Nat.add_one_mul (r.num / r.den) r.den
    simp only [round]
    split
    · omega
    · split
      · omega
      · split <;> omega
  obtain ⟨hle, hge⟩ := hround
  have hd' : (0 : ℚ) < r.den := by exact_mod_cast hd
  have hle' : 2 * ((r.round : ℚ) * r.den) ≤ 2 * r.num + r.den := by exact_mod_cast hle
  have hge' : 2 * (r.num : ℚ) ≤ 2 * (r.round * r.den) + r.den := by exact_mod_cast hge
  have hval : r.val * r.den = r.num := div_mul_cancel₀ _ hd'.ne'
  rw [abs_le]
  constructor <;> nlinarith

/-- Less than half a step beyond `N` is rounded to at most `N`. -/
theorem round_le (hd : 0 < r.den) (h : r.val < N + 1 / 2) : r.round ≤ N := by
  have herror := (abs_le.mp (abs_round_sub_val hd)).2
  have hlt : (r.round : ℚ) < N + 1 := by linarith
  exact Nat.lt_succ_iff.mp (by exact_mod_cast hlt)

/-- Less than half a step short of `N` is rounded to at least `N`. -/
theorem le_round (hd : 0 < r.den) (h : N - 1 / 2 < r.val) : N ≤ r.round := by
  have herror := (abs_le.mp (abs_round_sub_val hd)).1
  have hlt : (N : ℚ) < r.round + 1 := by linarith
  exact Nat.lt_succ_iff.mp (by exact_mod_cast hlt)

/-! ## Logarithms -/

theorem atLeastOne_iff (hd : 0 < r.den) : r.atLeastOne = true ↔ 1 ≤ r.val := by
  have hd' : (0 : ℚ) < r.den := by exact_mod_cast hd
  rw [atLeastOne, decide_eq_true_eq, val, one_le_div hd']
  exact Nat.cast_le.symm

/-- A guess that is at most one too high is put right. -/
theorem logFrom_spec (hb : 0 < b) (hd : 0 < r.den) {guess : ℤ} (hlow : (b : ℚ) ^ (guess - 1) ≤ r.val)
    (hhigh : r.val < (b : ℚ) ^ (guess + 1)) :
    (b : ℚ) ^ logFrom b guess r ≤ r.val ∧ r.val < (b : ℚ) ^ (logFrom b guess r + 1) := by
  have hpow : (0 : ℚ) < (b : ℚ) ^ guess := zpow_pos (by exact_mod_cast hb) _
  have hiff : (r.scale b (-guess)).atLeastOne = true ↔ (b : ℚ) ^ guess ≤ r.val := by
    rw [atLeastOne_iff (den_scale_pos hb hd), val_scale hb, zpow_neg, ← div_eq_mul_inv,
      one_le_div hpow]
  unfold logFrom
  split
  · next h => exact ⟨hiff.mp h, hhigh⟩
  · next h => exact ⟨hlow, by rw [sub_add_cancel]; exact lt_of_not_ge fun hge => h (hiff.mpr hge)⟩

/-- Bounds on numerator and denominator by powers are bounds on the ratio. -/
theorem val_bounds {m n : ℕ} (hb : 0 < b) (hnum : b ^ m ≤ r.num) (hnum' : r.num < b ^ (m + 1))
    (hden : b ^ n ≤ r.den) (hden' : r.den < b ^ (n + 1)) :
    (b : ℚ) ^ ((m : ℤ) - n - 1) ≤ r.val ∧ r.val < (b : ℚ) ^ ((m : ℤ) - n + 1) := by
  have hb' : (0 : ℚ) < b := by exact_mod_cast hb
  have hden_pos : 0 < r.den := (Nat.pow_pos hb).trans_le hden
  have hd : (0 : ℚ) < r.den := by exact_mod_cast hden_pos
  constructor
  · rw [val, le_div_iff₀ hd, show (m : ℤ) - n - 1 = (m : ℤ) - (n + 1 : ℕ) by push_cast; ring,
      zpow_sub₀ hb'.ne', zpow_natCast, zpow_natCast, div_mul_eq_mul_div, div_le_iff₀ (by positivity)]
    exact_mod_cast Nat.mul_le_mul hnum hden'.le
  · rw [val, div_lt_iff₀ hd, show (m : ℤ) - n + 1 = ((m + 1 : ℕ) : ℤ) - n by push_cast; ring,
      zpow_sub₀ hb'.ne', zpow_natCast, zpow_natCast, div_mul_eq_mul_div, lt_div_iff₀ (by positivity)]
    exact_mod_cast Nat.mul_lt_mul_of_lt_of_le hnum' hden hden_pos

theorem log2_spec (hn : 0 < r.num) (hd : 0 < r.den) :
    (2 : ℚ) ^ r.log2 ≤ r.val ∧ r.val < (2 : ℚ) ^ (r.log2 + 1) := by
  have hbounds := val_bounds (b := 2) (by decide) (Nat.log2_self_le hn.ne') Nat.lt_log2_self
    (Nat.log2_self_le hd.ne') Nat.lt_log2_self
  exact logFrom_spec (b := 2) (by decide) hd hbounds.1 hbounds.2

theorem decimalLength_spec {n : ℕ} (hn : 0 < n) :
    ∃ m, decimalLength n = m + 1 ∧ 10 ^ m ≤ n ∧ n < 10 ^ (m + 1) := by
  obtain ⟨m, hm⟩ := Nat.exists_eq_succ_of_ne_zero (Nat.length_toDigits_pos (b := 10) (n := n)).ne'
  refine ⟨m, hm, ?_, (Nat.length_toDigits_le_iff (by decide) (by omega)).mp hm.le⟩
  cases m with
  | zero => exact hn
  | succ m =>
    by_contra hlt
    have := (Nat.length_toDigits_le_iff (b := 10) (n := n) (k := m + 1) (by decide) (by omega)).mpr
      (by omega)
    omega

theorem log10_spec (hn : 0 < r.num) (hd : 0 < r.den) :
    (10 : ℚ) ^ r.log10 ≤ r.val ∧ r.val < (10 : ℚ) ^ (r.log10 + 1) := by
  obtain ⟨m, hm, hnum, hnum'⟩ := decimalLength_spec hn
  obtain ⟨n, hn, hden, hden'⟩ := decimalLength_spec hd
  have hbounds := val_bounds (b := 10) (by decide) hnum hnum' hden hden'
  have hguess : (decimalLength r.num : ℤ) - decimalLength r.den = m - n := by
    rw [hm, hn]
    push_cast
    ring
  unfold log10
  rw [hguess]
  exact logFrom_spec (b := 10) (by decide) hd hbounds.1 hbounds.2

theorem log2_lt {k : ℤ} (hn : 0 < r.num) (hd : 0 < r.den) (h : r.val < (2 : ℚ) ^ k) : r.log2 < k :=
  (zpow_lt_zpow_iff_right₀ (by norm_num)).mp ((log2_spec hn hd).1.trans_lt h)

theorem log10_eq {k : ℤ} (hn : 0 < r.num) (hd : 0 < r.den) (hlow : (10 : ℚ) ^ k ≤ r.val)
    (hhigh : r.val < (10 : ℚ) ^ (k + 1)) : r.log10 = k := by
  obtain ⟨hle, hlt⟩ := log10_spec hn hd
  have h1 : r.log10 < k + 1 := (zpow_lt_zpow_iff_right₀ (by norm_num)).mp (hle.trans_lt hhigh)
  have h2 : k < r.log10 + 1 := (zpow_lt_zpow_iff_right₀ (by norm_num)).mp (hlow.trans_lt hlt)
  omega

end Ratio

/-! ## Decimals and binary numbers -/

namespace Decimal

/-- The number that a decimal stands for. -/
def val (d : Decimal) : ℚ := d.digits * (10 : ℚ) ^ d.exponent

@[simp] theorem val_toRatio (d : Decimal) : d.toRatio.val = d.val := by
  rw [toRatio, Ratio.val_scale (by decide), Ratio.val_ofNat]
  rfl

theorem den_toRatio_pos (d : Decimal) : 0 < d.toRatio.den :=
  Ratio.den_scale_pos (by decide) Nat.one_pos

end Decimal

namespace Dyadic

/-- The number that a significand and an exponent stand for. -/
def val (d : Dyadic) : ℚ := d.significand * (2 : ℚ) ^ d.exponent

@[simp] theorem val_toRatio (d : Dyadic) : d.toRatio.val = d.val := by
  rw [toRatio, Ratio.val_scale (by decide), Ratio.val_ofNat]
  rfl

theorem den_toRatio_pos (d : Dyadic) : 0 < d.toRatio.den :=
  Ratio.den_scale_pos (by decide) Nat.one_pos

end Dyadic

namespace BinaryFormat

variable {F : BinaryFormat} {r : Ratio}

/-- The exponent of the grid on which a ratio is rounded. -/
def gridExponent (F : BinaryFormat) (r : Ratio) : ℤ := max (r.log2 - F.fractionBits) F.leastExponent

/-- The number on the grid that is nearest to a ratio, its significand as long as the format allows. -/
def rounded (F : BinaryFormat) (r : Ratio) : Dyadic :=
  let significand := (r.scale 2 (-F.gridExponent r)).round
  if significand = 2 * F.fractions then ⟨F.fractions, F.gridExponent r + 1⟩
  else ⟨significand, F.gridExponent r⟩

theorem nearest?_eq (hn : r.num ≠ 0) :
    F.nearest? r =
      if (F.rounded r).exponent + F.fractionBits ≤ F.bias then some (F.rounded r) else none := by
  rw [nearest?, if_neg hn]
  rfl

theorem val_rounded (F : BinaryFormat) (r : Ratio) :
    (F.rounded r).val =
      (r.scale 2 (-F.gridExponent r)).round * (2 : ℚ) ^ F.gridExponent r := by
  unfold rounded
  dsimp only
  split
  · next h =>
    rw [h, Dyadic.val, zpow_add₀ (by norm_num), zpow_one, Nat.cast_mul, Nat.cast_ofNat]
    ring
  · rfl

/-- Rounding is off by at most half a step of the grid. -/
theorem abs_rounded_sub_val (F : BinaryFormat) (hd : 0 < r.den) :
    |(F.rounded r).val - r.val| ≤ (2 : ℚ) ^ F.gridExponent r / 2 := by
  have hpow : (0 : ℚ) < 2 ^ F.gridExponent r := by positivity
  have hround := Ratio.abs_round_sub_val
    (Ratio.den_scale_pos (b := 2) (k := -F.gridExponent r) (by decide) hd)
  rw [Ratio.val_scale (by decide), Nat.cast_ofNat] at hround
  have hsplit : (F.rounded r).val - r.val = ((r.scale 2 (-F.gridExponent r)).round -
      r.val * 2 ^ (-F.gridExponent r)) * 2 ^ F.gridExponent r := by
    rw [sub_mul, mul_assoc, ← zpow_add₀ (by norm_num), neg_add_cancel, zpow_zero, mul_one, val_rounded]
  rw [hsplit, abs_mul, abs_of_pos hpow]
  calc _ ≤ 1 / 2 * (2 : ℚ) ^ F.gridExponent r := by gcongr
    _ = _ := by ring

theorem fractions_pos (F : BinaryFormat) : 0 < F.fractions := Nat.pow_pos (by decide)

theorem cast_fractions (F : BinaryFormat) : (F.fractions : ℚ) = 2 ^ (F.fractionBits : ℤ) := by
  rw [zpow_natCast, fractions, Nat.pow_eq, Nat.cast_pow, Nat.cast_ofNat]

/-- Half a step beyond the largest number of a format. -/
def limit (F : BinaryFormat) : ℚ := (2 * F.fractions - 1 / 2) * 2 ^ ((F.bias : ℤ) - F.fractionBits)

theorem pow_bias_le_limit (F : BinaryFormat) : (2 : ℚ) ^ (F.bias : ℤ) ≤ F.limit := by
  have hpos : (1 : ℚ) ≤ F.fractions := by exact_mod_cast F.fractions_pos
  calc (2 : ℚ) ^ (F.bias : ℤ) = F.fractions * 2 ^ ((F.bias : ℤ) - F.fractionBits) := by
        rw [cast_fractions, ← zpow_add₀ (by norm_num), add_sub_cancel]
    _ ≤ F.limit := by
        unfold limit
        gcongr
        linarith

theorem limit_le_pow (F : BinaryFormat) : F.limit ≤ (2 : ℚ) ^ ((F.bias : ℤ) + 1) := by
  calc F.limit ≤ 2 * F.fractions * 2 ^ ((F.bias : ℤ) - F.fractionBits) := by
        unfold limit
        gcongr
        linarith
    _ = 2 ^ ((F.bias : ℤ) + 1) := by
        rw [cast_fractions, zpow_sub₀ (by norm_num), zpow_add₀ (by norm_num), zpow_one]
        field_simp

theorem gridExponent_le {k : ℤ} (hn : 0 < r.num) (hd : 0 < r.den) (h : r.val < (2 : ℚ) ^ (k + 1))
    (hleast : F.leastExponent ≤ k - F.fractionBits) : F.gridExponent r ≤ k - F.fractionBits := by
  have hlog := Ratio.log2_lt hn hd h
  exact max_le (by omega) hleast

/-- The exponent of a number that is less than half a step beyond the largest one. -/
theorem exponent_rounded_le (hbias : 0 < F.bias) (hn : 0 < r.num) (hd : 0 < r.den)
    (h : r.val < F.limit) :
    (F.rounded r).exponent ≤ F.bias - F.fractionBits := by
  have htop : (0 : ℚ) < 2 ^ ((F.bias : ℤ) - F.fractionBits) := by positivity
  have hgrid : F.gridExponent r ≤ (F.bias : ℤ) - F.fractionBits := by
    refine gridExponent_le hn hd (h.trans_le F.limit_le_pow) ?_
    unfold leastExponent
    omega
  unfold rounded
  dsimp only
  split
  · next hround =>
    -- on the topmost grid the significand does not reach the next power of two
    have hne : F.gridExponent r ≠ (F.bias : ℤ) - F.fractionBits := by
      intro heq
      have hpos := F.fractions_pos
      have hle : (r.scale 2 (-F.gridExponent r)).round ≤ 2 * F.fractions - 1 := by
        refine Ratio.round_le (Ratio.den_scale_pos (by decide) hd) ?_
        rw [Ratio.val_scale (by decide), heq, zpow_neg, ← div_eq_mul_inv, Nat.cast_ofNat,
          div_lt_iff₀ htop, Nat.cast_sub (by omega)]
        refine h.trans_eq ?_
        rw [limit]
        push_cast
        ring
      omega
    dsimp only
    omega
  · exact hgrid

/-- What is less than half a step beyond the largest number has a nearest number in the format. -/
theorem nearest?_eq_some (hbias : 0 < F.bias) (hn : 0 < r.num) (hd : 0 < r.den)
    (h : r.val < F.limit) :
    F.nearest? r = some (F.rounded r) := by
  have hexp := exponent_rounded_le hbias hn hd h
  rw [nearest?_eq hn.ne', if_pos (by omega)]

/-- That number is at most half a step of the grid higher. -/
theorem exists_nearest?_le {k : ℤ} (hbias : 0 < F.bias) (hd : 0 < r.den)
    (h : r.val < F.limit)
    (hk : r.val < (2 : ℚ) ^ (k + 1)) (hleast : F.leastExponent ≤ k - F.fractionBits) :
    ∃ d, F.nearest? r = some d ∧ d.val ≤ r.val + 2 ^ (k - F.fractionBits) / 2 := by
  rcases Nat.eq_zero_or_pos r.num with hn | hn
  · refine ⟨⟨0, F.leastExponent⟩, by rw [nearest?, if_pos hn], ?_⟩
    have hval : r.val = 0 := by rw [Ratio.val, hn, Nat.cast_zero, zero_div]
    have hzero : (⟨0, F.leastExponent⟩ : Dyadic).val = 0 := by rw [Dyadic.val, Nat.cast_zero, zero_mul]
    rw [hval, hzero]
    positivity
  · refine ⟨F.rounded r, nearest?_eq_some hbias hn hd h, ?_⟩
    have herror := (abs_le.mp (F.abs_rounded_sub_val hd)).2
    have hgrid : (2 : ℚ) ^ F.gridExponent r ≤ 2 ^ (k - F.fractionBits) :=
      zpow_le_zpow_right₀ (by norm_num) (gridExponent_le hn hd hk hleast)
    linarith

end BinaryFormat

end DeferredLog
