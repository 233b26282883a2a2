import DeferredLog.Proofs.Number.Nearest

/-!
# Decimals in single precision

A decimal is read in single precision by way of double precision: rounded to the nearest number of
binary64, and then to the nearest of binary32 (`Ratio.single?`). Rounding twice still keeps the order and
the numbers of binary32. What is read as a number lies less than a step away from it, and whatever lies
close enough is read as it. Unless the number is a power of two, where steps change, the ratios that are
read as it lie symmetrically around it:

    r.val + r'.val = 2 * d.val → r.single? = some d → r'.single? = some d           (single?_mirror)
-/

namespace DeferredLog

open BinaryFormat (binary32 binary64)

/-- The number of binary32 that a ratio is read as. -/
def Ratio.single? (r : Ratio) : Option Dyadic :=
  (binary64.nearest? r).bind fun d => binary32.nearest? d.toRatio

/-- The number of binary32 that a decimal is read as. -/
def Decimal.single? (d : Decimal) : Option Dyadic := d.toRatio.single?

theorem Decimal.single?_of_read {d : Decimal} {c : Dyadic} (h : d.read = some c) :
    d.single? = binary32.nearest? c.toRatio := by
  rw [read] at h
  rw [single?, Ratio.single?, h, Option.bind_some]

/-- A positive number of binary32. -/
structure IsSingle (d : Dyadic) : Prop where
  number : binary32.IsNumber d
  pos : 0 < d.significand
  exponent_le : d.exponent ≤ 104

/-! ## The two formats -/

namespace BinaryFormat

theorem fractions_binary32 : binary32.fractions = 2 ^ 23 := rfl

theorem leastExponent_binary32 : binary32.leastExponent = -149 := rfl

theorem fractions_binary64 : binary64.fractions = 2 ^ 52 := rfl

theorem leastExponent_binary64 : binary64.leastExponent = -1074 := rfl

theorem significand_pos_of_nearest? {F : BinaryFormat} {r : Ratio} {d : Dyadic}
    (hs : 0 < d.significand) (h : F.nearest? r = some d) : 0 < r.num := by
  refine Nat.pos_of_ne_zero fun h0 => ?_
  rw [nearest?, if_pos h0] at h
  rw [← Option.some.inj h] at hs
  exact absurd hs (lt_irrefl 0)

end BinaryFormat

/-- A step is eight times its eighth. -/
theorem pow_eq_eighth (e : ℤ) : (2 : ℚ) ^ e = 8 * 2 ^ (e - 3) := by
  rw [zpow_sub₀ (by norm_num)]
  norm_num
  ring

namespace IsSingle

variable {d : Dyadic}

theorem significand_lt (h : IsSingle d) : d.significand < 2 ^ 24 := h.number.significand_lt

theorem least_le (h : IsSingle d) : -149 ≤ d.exponent := h.number.least_le

theorem long (h : IsSingle d) : d.exponent = -149 ∨ 2 ^ 23 ≤ d.significand := h.number.long

theorem val_pos (h : IsSingle d) : 0 < d.val := Dyadic.val_pos h.pos

theorem pow_exponent_le (h : IsSingle d) : (2 : ℚ) ^ d.exponent ≤ d.val :=
  le_mul_of_one_le_left (by positivity) (by exact_mod_cast h.pos)

theorem add_pow_le (h : IsSingle d) : d.val + 2 ^ d.exponent ≤ 2 ^ (d.exponent + 24) := by
  have hs : (d.significand : ℚ) + 1 ≤ 2 ^ 24 := by exact_mod_cast h.significand_lt
  calc d.val + 2 ^ d.exponent = (d.significand + 1) * 2 ^ d.exponent := by
        rw [Dyadic.val, add_mul, one_mul]
    _ ≤ 2 ^ 24 * 2 ^ d.exponent := by gcongr
    _ = 2 ^ (d.exponent + 24) := by
      rw [zpow_add₀ (by norm_num), mul_comm]
      norm_num

theorem add_pow_le_limit (h : IsSingle d) : d.val + 2 ^ d.exponent ≤ 2 ^ (128 : ℤ) := by
  have := h.exponent_le
  exact h.add_pow_le.trans (zpow_le_zpow_right₀ (by norm_num) (by omega))

end IsSingle

namespace Ratio

variable {r r' low high : Ratio} {d : Dyadic}

/-! ## Order -/

/-- The number of binary64 that is passed on the way to a positive number. -/
theorem exists_double (hs : 0 < d.significand) (h : r.single? = some d) :
    0 < r.num ∧ ∃ c, 0 < c.significand ∧ binary64.nearest? r = some c ∧
      binary32.nearest? c.toRatio = some d := by
  obtain ⟨c, hc, hsingle⟩ := Option.bind_eq_some_iff.mp h
  have hnum := BinaryFormat.significand_pos_of_nearest? hs hsingle
  have hcs : 0 < c.significand := by
    refine Dyadic.significand_pos_of_val_pos ?_
    rw [← c.val_toRatio]
    exact val_pos hnum c.den_toRatio_pos
  exact ⟨BinaryFormat.significand_pos_of_nearest? hcs hc, c, hcs, hc, hsingle⟩

/-- What lies between two ratios that are read as one number is read as it. -/
theorem single?_between (hs : 0 < d.significand) (hlow : 0 < low.den) (hd : 0 < r.den)
    (hhigh : 0 < high.den) (hbelow : low.single? = some d) (habove : high.single? = some d)
    (hle : low.val ≤ r.val) (hge : r.val ≤ high.val) : r.single? = some d := by
  obtain ⟨hn, b, hb, hbelow64, hbelow32⟩ := exists_double hs hbelow
  obtain ⟨-, a, -, habove64, habove32⟩ := exists_double hs habove
  obtain ⟨c, hc, hbc, hca⟩ :=
    BinaryFormat.exists_nearest?_between hn hlow hd hhigh hbelow64 habove64 hle hge
  rw [single?, hc, Option.bind_some]
  refine BinaryFormat.nearest?_between (Dyadic.num_toRatio_pos hb) b.den_toRatio_pos c.den_toRatio_pos
    a.den_toRatio_pos hbelow32 habove32 ?_ ?_
  · rwa [Dyadic.val_toRatio, Dyadic.val_toRatio]
  · rwa [Dyadic.val_toRatio, Dyadic.val_toRatio]

/-- Ratios of one value are read alike. -/
theorem single?_congr (hs : 0 < d.significand) (hd : 0 < r.den) (hd' : 0 < r'.den)
    (h : r.single? = some d) (hval : r'.val = r.val) : r'.single? = some d :=
  single?_between hs hd hd' hd h h hval.ge hval.le

/-! ## Numbers of binary32 -/

theorem lt_limit_binary64 (h : r.val < 2 ^ (128 : ℤ)) : r.val < binary64.limit :=
  h.trans_le ((zpow_le_zpow_right₀ (by norm_num) (by decide)).trans binary64.pow_bias_le_limit)

/-- What both roundings lead to a number from is read as it. -/
theorem single?_of_val_rounded (h : IsSingle d) (hn : 0 < r.num) (hd : 0 < r.den)
    (hlt : r.val < 2 ^ (128 : ℤ)) (hpos : 0 < (binary64.rounded r).val)
    (hval : (binary32.rounded (binary64.rounded r).toRatio).val = d.val) : r.single? = some d := by
  have hn' := Dyadic.num_toRatio_pos (Dyadic.significand_pos_of_val_pos hpos)
  rw [single?, BinaryFormat.nearest?_eq_some (by decide) hn hd (lt_limit_binary64 hlt), Option.bind_some]
  refine (BinaryFormat.nearest?_eq_some_iff hn').mpr ⟨?_, ?_⟩
  · exact (BinaryFormat.isNumber_rounded hn' (Dyadic.den_toRatio_pos _) binary32).eq_of_val_eq h.number hval
  · have := h.exponent_le
    rw [show (binary32.fractionBits : ℤ) = 23 from rfl, show (binary32.bias : ℤ) = 127 from rfl]
    omega

/-- A number of binary32 is read as itself. -/
theorem single?_of_val_eq (h : IsSingle d) (hd : 0 < r.den) (hval : r.val = d.val) :
    r.single? = some d := by
  have hn : 0 < r.num := num_pos_of_val_pos (hval ▸ h.val_pos)
  have hdouble : (binary64.rounded r).val = d.val := by
    refine (BinaryFormat.val_rounded_of_le hn hd ?_ ?_ hval).trans hval
    · have := h.significand_lt
      rw [BinaryFormat.fractions_binary64]
      omega
    · have := h.least_le
      rw [BinaryFormat.leastExponent_binary64]
      omega
  have hpos : 0 < (binary64.rounded r).val := hdouble ▸ h.val_pos
  have hsingle : (binary32.rounded (binary64.rounded r).toRatio).val = d.val := by
    rw [BinaryFormat.rounded_of_val_eq
      (Dyadic.num_toRatio_pos (Dyadic.significand_pos_of_val_pos hpos)) (Dyadic.den_toRatio_pos _)
      h.number ((Dyadic.val_toRatio _).trans hdouble)]
  have hlt : d.val < 2 ^ (128 : ℤ) := lt_of_lt_of_le (lt_add_of_pos_right _ (by positivity)) h.add_pow_le_limit
  exact single?_of_val_rounded h hn hd (hval ▸ hlt) hpos hsingle

/-! ## What is read as a number -/

/-- What is rounded to less than a step away from a number with a short significand lies there. -/
theorem close_of_rounded {F : BinaryFormat} {s : ℕ} {e : ℤ} (hF : 2 ^ 23 ≤ F.fractions)
    (he : F.leastExponent ≤ e) (hn : 0 < r.num) (hd : 0 < r.den) (hs : 0 < s) (hs' : s < 2 ^ 24)
    (h : |(F.rounded r).val - s * 2 ^ e| < 2 ^ e) : |r.val - s * 2 ^ e| < 2 ^ e := by
  have hbelow : ((s - 1 : ℕ) : ℚ) = s - 1 := by rw [Nat.cast_sub hs, Nat.cast_one]
  rw [abs_lt] at h
  by_contra hfar
  rw [not_lt, le_abs] at hfar
  rcases hfar with hge | hle
  · have hround := BinaryFormat.le_val_rounded_of_le (N := s + 1) hn hd (by omega) he
      (by push_cast; linarith)
    push_cast at hround
    linarith
  · have hround := BinaryFormat.val_rounded_le_of_le (N := s - 1) hn hd (by omega) he
      (by rw [hbelow]; linarith)
    rw [hbelow] at hround
    linarith

/-- What is read as a number, and the number of binary64 that is passed, are less than a step away. -/
theorem close_of_single? (h : IsSingle d) (hd : 0 < r.den) (hr : r.single? = some d) :
    |(binary64.rounded r).val - d.val| < 2 ^ d.exponent ∧ |r.val - d.val| < 2 ^ d.exponent := by
  obtain ⟨hn, c, hc, hdouble, hsingle⟩ := exists_double h.pos hr
  obtain ⟨rfl, -⟩ := (BinaryFormat.nearest?_eq_some_iff hn).mp hdouble
  obtain ⟨hrounded, -⟩ := (BinaryFormat.nearest?_eq_some_iff (Dyadic.num_toRatio_pos hc)).mp hsingle
  have hself : |(binary32.rounded (binary64.rounded r).toRatio).val - d.val| < 2 ^ d.exponent := by
    rw [hrounded, sub_self, abs_zero]
    positivity
  have hmiddle : |(binary64.rounded r).val - d.val| < 2 ^ d.exponent := by
    have hclose := close_of_rounded le_rfl h.least_le (Dyadic.num_toRatio_pos hc)
      (Dyadic.den_toRatio_pos _) h.pos h.significand_lt hself
    rwa [Dyadic.val_toRatio] at hclose
  exact ⟨hmiddle, close_of_rounded (by decide) ((by decide : binary64.leastExponent ≤ -149).trans h.least_le)
    hn hd h.pos h.significand_lt hmiddle⟩

/-- Between powers of two, what is less than a step away from a number lies between the same ones. -/
theorem pow_le_of_close {k : ℕ} {y : ℚ} (hlow : 2 ^ k < d.significand) (hhigh : d.significand < 2 ^ (k + 1))
    (h : |y - d.val| < 2 ^ d.exponent) :
    (2 : ℚ) ^ (k + d.exponent) ≤ y ∧ y < 2 ^ (k + d.exponent + 1) := by
  have hpow : (0 : ℚ) < 2 ^ d.exponent := by positivity
  have hlow' : (2 : ℚ) ^ k + 1 ≤ d.significand := by exact_mod_cast hlow
  have hhigh' : (d.significand : ℚ) + 1 ≤ 2 ^ (k + 1) := by exact_mod_cast hhigh
  have hle := mul_le_mul_of_nonneg_right hlow' hpow.le
  have hge := mul_le_mul_of_nonneg_right hhigh' hpow.le
  rw [abs_lt, Dyadic.val] at h
  rw [show (k : ℤ) + d.exponent + 1 = (k + 1 : ℕ) + d.exponent by push_cast; ring,
    zpow_add₀ (by norm_num), zpow_add₀ (by norm_num), zpow_natCast, zpow_natCast]
  constructor <;> linarith

/-- Between powers of two, ratios that lie symmetrically around a number are rounded symmetrically. -/
theorem val_rounded_mirror {F : BinaryFormat} (hbits : 23 ≤ F.fractionBits)
    (hleast : F.leastExponent ≤ -149) (h : IsSingle d) {k : ℕ} (hlow : 2 ^ k < d.significand)
    (hhigh : d.significand < 2 ^ (k + 1)) (hd : 0 < r.den) (hd' : 0 < r'.den)
    (hclose : |r.val - d.val| < 2 ^ d.exponent) (hsum : r.val + r'.val = 2 * d.val) :
    (F.rounded r).val + (F.rounded r').val = 2 * d.val := by
  have hk : k ≤ 23 := by
    have hpow : 2 ^ k < 2 ^ 24 := hlow.trans h.significand_lt
    exact Nat.lt_succ_iff.mp ((Nat.pow_lt_pow_iff_right (by decide)).mp hpow)
  have hclose' : |r'.val - d.val| < 2 ^ d.exponent := by
    rwa [show r'.val - d.val = -(r.val - d.val) by linarith, abs_neg]
  obtain ⟨hle, hlt⟩ := pow_le_of_close hlow hhigh hclose
  obtain ⟨hle', hlt'⟩ := pow_le_of_close hlow hhigh hclose'
  exact BinaryFormat.val_rounded_mirror hd hd' hle hlt hle' hlt' d.onGrid (by omega)
    (hleast.trans h.least_le) hsum

/-- The ratios that are read as a number lie symmetrically around it, unless it is a power of two. -/
theorem single?_mirror (h : IsSingle d) {k : ℕ} (hlow : 2 ^ k < d.significand)
    (hhigh : d.significand < 2 ^ (k + 1)) (hd : 0 < r.den) (hd' : 0 < r'.den)
    (hsum : r.val + r'.val = 2 * d.val) (hr : r.single? = some d) : r'.single? = some d := by
  obtain ⟨hn, c, hc, hdouble, hsingle⟩ := exists_double h.pos hr
  obtain ⟨rfl, -⟩ := (BinaryFormat.nearest?_eq_some_iff hn).mp hdouble
  obtain ⟨hrounded, -⟩ := (BinaryFormat.nearest?_eq_some_iff (Dyadic.num_toRatio_pos hc)).mp hsingle
  obtain ⟨hclose64, hclose⟩ := close_of_single? h hd hr
  have hsum64 := val_rounded_mirror (F := binary64) (by decide) (by decide) h hlow hhigh hd hd' hclose hsum
  have hsum32 : (binary32.rounded (binary64.rounded r).toRatio).val +
      (binary32.rounded (binary64.rounded r').toRatio).val = 2 * d.val := by
    refine val_rounded_mirror (by decide) (by decide) h hlow hhigh (Dyadic.den_toRatio_pos _)
      (Dyadic.den_toRatio_pos _) ?_ ?_
    · rwa [Dyadic.val_toRatio]
    · rwa [Dyadic.val_toRatio, Dyadic.val_toRatio]
  -- less than a step away from the number, its image is positive and in range
  have hstep := h.pow_exponent_le
  have hlimit := h.add_pow_le_limit
  have hbelow := abs_lt.mp hclose
  have hbelow64 := abs_lt.mp hclose64
  refine single?_of_val_rounded h (num_pos_of_val_pos (by linarith)) hd' (by linarith) (by linarith) ?_
  rw [hrounded] at hsum32
  linarith

/-- What lies within an eighth of a step stays there in binary64. -/
theorem double_close (h : IsSingle d) (hd : 0 < r.den)
    (hclose : |r.val - d.val| ≤ 2 ^ (d.exponent - 3)) :
    |(binary64.rounded r).val - d.val| ≤ 2 ^ (d.exponent - 3) := by
  have hpow : (0 : ℚ) < 2 ^ (d.exponent - 3) := by positivity
  have hs := h.pos
  have hs' := h.significand_lt
  have hval : d.val = 8 * d.significand * 2 ^ (d.exponent - 3) := by
    rw [Dyadic.val, pow_eq_eighth]
    ring
  have hbelow : ((8 * d.significand - 1 : ℕ) : ℚ) = 8 * d.significand - 1 := by
    rw [Nat.cast_sub (by omega), Nat.cast_mul, Nat.cast_ofNat, Nat.cast_one]
  have hpositive := h.pow_exponent_le
  rw [pow_eq_eighth] at hpositive
  have hleast : binary64.leastExponent ≤ d.exponent - 3 := by
    have := h.least_le
    rw [BinaryFormat.leastExponent_binary64]
    omega
  have hfr := BinaryFormat.fractions_binary64
  rw [abs_le] at hclose
  have hn : 0 < r.num := num_pos_of_val_pos (by linarith)
  -- both ends are numbers of binary64
  have hlow := BinaryFormat.le_val_rounded_of_le (N := 8 * d.significand - 1) hn hd (by omega) hleast
    (by rw [hbelow]; linarith)
  have hhigh := BinaryFormat.val_rounded_le_of_le (N := 8 * d.significand + 1) hn hd (by omega) hleast
    (by push_cast; linarith)
  rw [hbelow] at hlow
  push_cast at hhigh
  refine abs_le.mpr ⟨?_, ?_⟩ <;> linarith

/-- The grid around a number is its own, or the finer one below a power of two. -/
theorem gridExponent_of_close (h : IsSingle d) (hn : 0 < r.num) (hd : 0 < r.den)
    (hclose : |r.val - d.val| ≤ 2 ^ (d.exponent - 3)) :
    binary32.gridExponent r ≤ d.exponent ∧ d.exponent - 1 ≤ binary32.gridExponent r := by
  have hpow : (0 : ℚ) < 2 ^ (d.exponent - 3) := by positivity
  have hstep := pow_eq_eighth d.exponent
  have hbits : (binary32.fractionBits : ℤ) = 23 := rfl
  rw [abs_le] at hclose
  constructor
  · refine h.number.gridExponent_le hn hd ?_
    rw [hbits, add_assoc, show (23 : ℤ) + 1 = 24 from rfl]
    have := h.add_pow_le
    linarith
  · rcases h.long with hleast | hlong
    · exact le_trans (by rw [BinaryFormat.leastExponent_binary32]; omega) (le_max_right _ _)
    · have hlong' : (2 : ℚ) ^ 23 ≤ d.significand := by exact_mod_cast hlong
      have hlow : (2 : ℚ) ^ (d.exponent + 22) ≤ r.val := by
        have hmul := mul_le_mul_of_nonneg_right hlong' (zpow_pos two_pos d.exponent).le
        have hsplit : (2 : ℚ) ^ (d.exponent + 22) = 2 ^ 22 * 2 ^ d.exponent := by
          rw [zpow_add₀ (by norm_num), mul_comm]
          norm_num
        rw [← Dyadic.val] at hmul
        rw [hsplit]
        linarith
      have hlog := (zpow_lt_zpow_iff_right₀ (a := (2 : ℚ)) (by norm_num)).mp
        (hlow.trans_lt (log2_spec hn hd).2)
      exact le_trans (by rw [hbits]; omega) (le_max_left _ _)

/-- What lies within an eighth of a step is read as the number. -/
theorem single?_of_close (h : IsSingle d) (hd : 0 < r.den)
    (hclose : |r.val - d.val| ≤ 2 ^ (d.exponent - 3)) : r.single? = some d := by
  have hdouble := double_close h hd hclose
  have hpow : (0 : ℚ) < 2 ^ (d.exponent - 3) := by positivity
  have hstep := pow_eq_eighth d.exponent
  have hval := h.pow_exponent_le
  have hlimit := h.add_pow_le_limit
  have hr := abs_le.mp hclose
  have hr64 := abs_le.mp hdouble
  have hpos64 : 0 < (binary64.rounded r).val := by linarith
  have hden64 := (binary64.rounded r).den_toRatio_pos
  rw [← Dyadic.val_toRatio (binary64.rounded r)] at hdouble
  obtain ⟨hgrid, hgrid'⟩ := gridExponent_of_close h
    (Dyadic.num_toRatio_pos (Dyadic.significand_pos_of_val_pos hpos64)) hden64 hdouble
  refine single?_of_val_rounded h (num_pos_of_val_pos (by linarith)) hd (by linarith) hpos64 ?_
  refine BinaryFormat.val_rounded_of_close hden64 (d.onGrid.mono hgrid) ?_
  have hfine : (2 : ℚ) ^ (d.exponent - 1) ≤ 2 ^ binary32.gridExponent (binary64.rounded r).toRatio :=
    zpow_le_zpow_right₀ (by norm_num) hgrid'
  have hhalf : (2 : ℚ) ^ (d.exponent - 1) = 4 * 2 ^ (d.exponent - 3) := by
    rw [show d.exponent - 1 = 2 + (d.exponent - 3) by ring, zpow_add₀ (by norm_num)]
    norm_num
  rw [abs_sub_comm]
  linarith

end Ratio

end DeferredLog
