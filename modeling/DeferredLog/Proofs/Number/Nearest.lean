import DeferredLog.Proofs.Number.Rounding

/-!
# Nearest numbers

What `BinaryFormat.nearest?` gives is a number of the format, and the numbers of a format are the same
only if their values are (`IsNumber`). Rounding keeps the order of ratios and leaves numbers of the format
as they are, so that the ratios that a number is nearest to are all ratios between two of them:

    nearest? r₁ = some d and nearest? r₂ = some d → nearest? r = some d for r between r₁ and r₂

Around a number of the format it is symmetric, as far as the grid does not change.
-/

namespace DeferredLog

/-! ## Rounding to natural numbers -/

namespace Ratio

variable {r r' : Ratio} {N : ℕ}

/-- A tie is rounded to an even number. -/
theorem even_round (hd : 0 < r.den) (h : |(r.round : ℚ) - r.val| = 1 / 2) : Even r.round := by
  have hd' : (0 : ℚ) < r.den := by exact_mod_cast hd
  have hval : r.val * r.den = r.num := div_mul_cancel₀ _ hd'.ne'
  have htie : 2 * (r.round * r.den) = 2 * r.num + r.den ∨ 2 * (r.round * r.den) + r.den = 2 * r.num := by
    rcases (abs_eq (by norm_num)).mp h with hup | hdown
    · left
      have heq : (2 * (r.round * r.den) : ℚ) = 2 * r.num + r.den := by
        rw [← hval, show (r.round : ℚ) = r.val + 1 / 2 by linarith]
        ring
      exact_mod_cast heq
    · right
      have heq : (2 * (r.round * r.den) + r.den : ℚ) = 2 * r.num := by
        rw [← hval, show (r.round : ℚ) = r.val - 1 / 2 by linarith]
        ring
      exact_mod_cast heq
  have hdiv := Nat.div_add_mod r.num r.den
  have hmod := Nat.mod_lt r.num hd
  rw [Nat.mul_comm] at hdiv
  have hsucc := Nat.add_one_mul (r.num / r.den) r.den
  simp only [round] at htie ⊢
  rw [Nat.even_iff]
  split
  · next hlow =>
    rw [if_pos hlow] at htie
    omega
  · next hlow =>
    rw [if_neg hlow] at htie
    split
    · next hhigh =>
      rw [if_pos hhigh] at htie
      omega
    · split
      · assumption
      · omega

/-- There is one nearest natural number, the even one of two. -/
theorem round_unique (hd : 0 < r.den) (h : |(N : ℚ) - r.val| ≤ 1 / 2)
    (heven : |(N : ℚ) - r.val| = 1 / 2 → Even N) : r.round = N := by
  have hround := abs_le.mp (abs_round_sub_val hd)
  have hN := abs_le.mp h
  -- two of them would be neighbours, each half a step away, and both even
  have htie {a b : ℕ} (hab : a < b) (ha : -(1 / 2) ≤ (a : ℚ) - r.val) (hb : (b : ℚ) - r.val ≤ 1 / 2) :
      |(a : ℚ) - r.val| = 1 / 2 ∧ |(b : ℚ) - r.val| = 1 / 2 ∧ b = a + 1 := by
    have hle : (a : ℚ) + 1 ≤ b := by exact_mod_cast hab
    have hda : (a : ℚ) - r.val = -(1 / 2) := by linarith
    have hdb : (b : ℚ) - r.val = 1 / 2 := by linarith
    have hsucc : (b : ℚ) = a + 1 := by linarith
    refine ⟨?_, ?_, by exact_mod_cast hsucc⟩
    · rw [hda, abs_neg]
      norm_num
    · rw [hdb]
      norm_num
  rcases lt_trichotomy r.round N with hlt | heq | hgt
  · obtain ⟨ha, hb, hsucc⟩ := htie hlt hround.1 hN.2
    have hevenN := heven hb
    rw [hsucc, Nat.even_add_one] at hevenN
    exact absurd (even_round hd ha) hevenN
  · exact heq
  · obtain ⟨ha, hb, hsucc⟩ := htie hgt hN.1 hround.2
    have hevenR := even_round hd hb
    rw [hsucc, Nat.even_add_one] at hevenR
    exact absurd (heven ha) hevenR

theorem round_le_of_val_le (hd : 0 < r.den) (h : r.val ≤ N) : r.round ≤ N :=
  round_le hd (by linarith)

theorem le_round_of_le_val (hd : 0 < r.den) (h : N ≤ r.val) : N ≤ r.round :=
  le_round hd (by linarith)

theorem round_mono (hd : 0 < r.den) (hd' : 0 < r'.den) (h : r.val ≤ r'.val) : r.round ≤ r'.round := by
  have hround := abs_le.mp (abs_round_sub_val hd)
  have hround' := abs_le.mp (abs_round_sub_val hd')
  by_contra hlt
  have hle : (r'.round : ℚ) + 1 ≤ r.round := by exact_mod_cast Nat.lt_of_not_le hlt
  have htie : (r.round : ℚ) - r.val = 1 / 2 := by linarith
  have htie' : (r'.round : ℚ) - r'.val = -(1 / 2) := by linarith
  have hsucc : (r.round : ℚ) = r'.round + 1 := by linarith
  have heven := even_round hd (by rw [htie]; norm_num)
  have heven' := even_round hd' (by rw [htie']; norm_num)
  rw [show r.round = r'.round + 1 by exact_mod_cast hsucc, Nat.even_add_one] at heven
  exact heven heven'

/-- Ratios that lie symmetrically around a natural number are rounded symmetrically. -/
theorem round_add_round (hd : 0 < r.den) (hd' : 0 < r'.den) (h : r.val + r'.val = 2 * N) :
    r.round + r'.round = 2 * N := by
  have hval : 0 ≤ r'.val := div_nonneg (Nat.cast_nonneg _) (Nat.cast_nonneg _)
  have hle : r.round ≤ 2 * N := round_le_of_val_le hd (by push_cast; linarith)
  have hmirror : ((2 * N - r.round : ℕ) : ℚ) - r'.val = -((r.round : ℚ) - r.val) := by
    rw [Nat.cast_sub hle]
    push_cast
    linarith
  have hround' : r'.round = 2 * N - r.round := by
    refine round_unique hd' ?_ fun htie => ?_
    · rw [hmirror, abs_neg]
      exact abs_round_sub_val hd
    · rw [hmirror, abs_neg] at htie
      have heven := even_round hd htie
      rw [Nat.even_iff] at heven ⊢
      omega
  omega

theorem log2_eq {k : ℤ} (hn : 0 < r.num) (hd : 0 < r.den) (hlow : (2 : ℚ) ^ k ≤ r.val)
    (hhigh : r.val < (2 : ℚ) ^ (k + 1)) : r.log2 = k := by
  obtain ⟨hle, hlt⟩ := log2_spec hn hd
  have h1 : r.log2 < k + 1 := log2_lt hn hd hhigh
  have h2 : k < r.log2 + 1 := (zpow_lt_zpow_iff_right₀ (by norm_num)).mp (hlow.trans_lt hlt)
  omega

theorem log2_mono (hn : 0 < r.num) (hd : 0 < r.den) (hn' : 0 < r'.num) (hd' : 0 < r'.den)
    (h : r.val ≤ r'.val) : r.log2 ≤ r'.log2 :=
  Int.lt_add_one_iff.mp (log2_lt hn hd (h.trans_lt (log2_spec hn' hd').2))

theorem val_pos (hn : 0 < r.num) (hd : 0 < r.den) : 0 < r.val :=
  div_pos (by exact_mod_cast hn) (by exact_mod_cast hd)

end Ratio

/-! ## Grids -/

/-- The multiples of a power of two. -/
def OnGrid (g : ℤ) (x : ℚ) : Prop := ∃ N : ℕ, x = N * (2 : ℚ) ^ g

theorem OnGrid.mono {g g' : ℤ} {x : ℚ} (hg : g' ≤ g) (h : OnGrid g x) : OnGrid g' x := by
  obtain ⟨N, rfl⟩ := h
  obtain ⟨k, rfl⟩ : ∃ k : ℕ, g = g' + k := ⟨(g - g').toNat, by omega⟩
  refine ⟨N * 2 ^ k, ?_⟩
  rw [zpow_add₀ (by norm_num), zpow_natCast]
  push_cast
  ring

theorem onGrid_pow {g k : ℤ} (h : g ≤ k) : OnGrid g ((2 : ℚ) ^ k) :=
  OnGrid.mono h ⟨1, by rw [Nat.cast_one, one_mul]⟩

theorem Dyadic.val_pos {d : Dyadic} (h : 0 < d.significand) : 0 < d.val :=
  mul_pos (by exact_mod_cast h) (by positivity)

theorem Dyadic.num_toRatio_pos {d : Dyadic} (h : 0 < d.significand) : 0 < d.toRatio.num :=
  Ratio.num_pos_of_val_pos (by rw [val_toRatio]; exact val_pos h)

theorem Dyadic.significand_pos_of_val_pos {d : Dyadic} (h : 0 < d.val) : 0 < d.significand := by
  refine Nat.pos_of_ne_zero fun h0 => ?_
  rw [val, h0, Nat.cast_zero, zero_mul] at h
  exact lt_irrefl _ h

theorem Dyadic.onGrid (d : Dyadic) : OnGrid d.exponent d.val := ⟨d.significand, rfl⟩

namespace BinaryFormat

variable {F : BinaryFormat} {r r' : Ratio} {d d' : Dyadic} {x : ℚ}

theorem val_scale_grid (F : BinaryFormat) (r : Ratio) :
    (r.scale 2 (-F.gridExponent r)).val = r.val / 2 ^ F.gridExponent r := by
  rw [Ratio.val_scale (by decide), zpow_neg, ← div_eq_mul_inv, Nat.cast_ofNat]

section
variable (hd : 0 < r.den)

include hd

theorem val_rounded_le (hx : OnGrid (F.gridExponent r) x) (h : r.val ≤ x) : (F.rounded r).val ≤ x := by
  obtain ⟨N, rfl⟩ := hx
  have hround : (r.scale 2 (-F.gridExponent r)).round ≤ N := by
    refine Ratio.round_le_of_val_le (Ratio.den_scale_pos (by decide) hd) ?_
    rw [val_scale_grid, div_le_iff₀ (by positivity)]
    exact h
  rw [val_rounded]
  gcongr

theorem le_val_rounded (hx : OnGrid (F.gridExponent r) x) (h : x ≤ r.val) : x ≤ (F.rounded r).val := by
  obtain ⟨N, rfl⟩ := hx
  have hround : N ≤ (r.scale 2 (-F.gridExponent r)).round := by
    refine Ratio.le_round_of_le_val (Ratio.den_scale_pos (by decide) hd) ?_
    rw [val_scale_grid, le_div_iff₀ (by positivity)]
    exact h
  rw [val_rounded]
  gcongr

theorem val_rounded_of_onGrid (h : OnGrid (F.gridExponent r) r.val) : (F.rounded r).val = r.val :=
  le_antisymm (val_rounded_le hd h le_rfl) (le_val_rounded hd h le_rfl)

/-- A point of the grid that is less than half a step away is the nearest one. -/
theorem val_rounded_of_close (hx : OnGrid (F.gridExponent r) x)
    (h : |x - r.val| < 2 ^ F.gridExponent r / 2) : (F.rounded r).val = x := by
  obtain ⟨N, rfl⟩ := hx
  have hpow : (0 : ℚ) < 2 ^ F.gridExponent r := by positivity
  have hclose : |(N : ℚ) - (r.scale 2 (-F.gridExponent r)).val| < 1 / 2 := by
    rw [val_scale_grid, ← mul_lt_mul_iff_of_pos_right hpow, ← abs_of_pos hpow, ← abs_mul, sub_mul,
      abs_of_pos hpow, div_mul_cancel₀ _ hpow.ne', one_div_mul_eq_div]
    exact h
  have hround := Ratio.round_unique
    (Ratio.den_scale_pos (b := 2) (k := -F.gridExponent r) (by decide) hd) hclose.le
    fun htie => absurd htie hclose.ne
  rw [val_rounded, hround]

/-- Ratios that lie symmetrically around a point of the grid are rounded symmetrically. -/
theorem val_rounded_add_val_rounded (hd' : 0 < r'.den) (hgrid : F.gridExponent r' = F.gridExponent r)
    (hx : OnGrid (F.gridExponent r) x) (h : r.val + r'.val = 2 * x) :
    (F.rounded r).val + (F.rounded r').val = 2 * x := by
  obtain ⟨N, rfl⟩ := hx
  have hpow : (0 : ℚ) < 2 ^ F.gridExponent r := by positivity
  have hround := Ratio.round_add_round (N := N)
    (Ratio.den_scale_pos (b := 2) (k := -F.gridExponent r) (by decide) hd)
    (Ratio.den_scale_pos (b := 2) (k := -F.gridExponent r') (by decide) hd') (by
      rw [val_scale_grid, val_scale_grid, hgrid, ← add_div, h, mul_div_assoc, mul_div_cancel_right₀ _ hpow.ne'])
  rw [hgrid] at hround
  have hcast : ((r.scale 2 (-F.gridExponent r)).round : ℚ) +
      (r'.scale 2 (-F.gridExponent r)).round = 2 * N := by exact_mod_cast hround
  rw [val_rounded, val_rounded, hgrid, ← add_mul, hcast, mul_assoc]

end

/-! ## Numbers of a format -/

/-- A number of a format without its greatest exponent, its significand as long as the format allows. -/
structure IsNumber (F : BinaryFormat) (d : Dyadic) : Prop where
  significand_lt : d.significand < 2 * F.fractions
  least_le : F.leastExponent ≤ d.exponent
  long : d.exponent = F.leastExponent ∨ F.fractions ≤ d.significand

namespace IsNumber

theorem val_lt (h : F.IsNumber d) : d.val < 2 ^ (d.exponent + F.fractionBits + 1) := by
  have hpow : (0 : ℚ) < 2 ^ d.exponent := by positivity
  have hlt : (d.significand : ℚ) < 2 * F.fractions := by exact_mod_cast h.significand_lt
  calc d.val < 2 * F.fractions * 2 ^ d.exponent := mul_lt_mul_of_pos_right hlt hpow
    _ = 2 ^ (d.exponent + F.fractionBits + 1) := by
      rw [cast_fractions, zpow_add₀ (by norm_num), zpow_add₀ (by norm_num), zpow_one]
      ring

theorem le_val (h : F.IsNumber d) (hlong : d.exponent ≠ F.leastExponent) :
    (2 : ℚ) ^ (d.exponent + F.fractionBits) ≤ d.val := by
  have hle : (F.fractions : ℚ) ≤ d.significand := by exact_mod_cast h.long.resolve_left hlong
  calc (2 : ℚ) ^ (d.exponent + F.fractionBits) = F.fractions * 2 ^ d.exponent := by
        rw [cast_fractions, zpow_add₀ (by norm_num), mul_comm]
    _ ≤ d.val := mul_le_mul_of_nonneg_right hle (by positivity)

theorem exponent_le (h : F.IsNumber d) (h' : F.IsNumber d') (hval : d.val ≤ d'.val) :
    d.exponent ≤ d'.exponent := by
  by_contra hlt
  have hle := h'.least_le
  have hlow := h.le_val (by omega)
  have hpow : (2 : ℚ) ^ (d.exponent + F.fractionBits) < 2 ^ (d'.exponent + F.fractionBits + 1) :=
    (hlow.trans hval).trans_lt h'.val_lt
  have := (zpow_lt_zpow_iff_right₀ (a := (2 : ℚ)) (by norm_num)).mp hpow
  omega

/-- Numbers of a format are told apart by their values. -/
theorem eq_of_val_eq (h : F.IsNumber d) (h' : F.IsNumber d') (hval : d.val = d'.val) : d = d' := by
  have hexp := le_antisymm (h.exponent_le h' hval.le) (h'.exponent_le h hval.ge)
  have hpow : (0 : ℚ) < 2 ^ d.exponent := by positivity
  rw [Dyadic.val, Dyadic.val, ← hexp, mul_left_inj' hpow.ne'] at hval
  have hsig : d.significand = d'.significand := by exact_mod_cast hval
  cases d
  cases d'
  simp_all

theorem gridExponent_le (h : F.IsNumber d) (hn : 0 < r.num) (hd : 0 < r.den)
    (hval : r.val < 2 ^ (d.exponent + F.fractionBits + 1)) : F.gridExponent r ≤ d.exponent := by
  have hlog := Ratio.log2_lt hn hd hval
  exact max_le (by omega) h.least_le

end IsNumber

section
variable (hn : 0 < r.num) (hd : 0 < r.den)

include hn hd

theorem isNumber_rounded (F : BinaryFormat) : F.IsNumber (F.rounded r) := by
  obtain ⟨hlow, hhigh⟩ := Ratio.log2_spec hn hd
  have hpow : (0 : ℚ) < 2 ^ F.gridExponent r := by positivity
  have hleast : F.leastExponent ≤ F.gridExponent r := le_max_right _ _
  have hround : (r.scale 2 (-F.gridExponent r)).round ≤ 2 * F.fractions := by
    refine Ratio.round_le_of_val_le (Ratio.den_scale_pos (by decide) hd) ?_
    rw [val_scale_grid, div_le_iff₀ hpow, Nat.cast_mul, Nat.cast_ofNat, cast_fractions]
    refine hhigh.le.trans ?_
    rw [mul_assoc, ← zpow_add₀ (by norm_num), ← zpow_one_add₀ (by norm_num)]
    have hgrid : r.log2 - F.fractionBits ≤ F.gridExponent r := le_max_left _ _
    exact zpow_le_zpow_right₀ (by norm_num) (by omega)
  have hlong : F.gridExponent r = F.leastExponent ∨
      F.fractions ≤ (r.scale 2 (-F.gridExponent r)).round := by
    rcases max_choice (r.log2 - F.fractionBits) F.leastExponent with hlog | hleast
    · right
      refine Ratio.le_round_of_le_val (Ratio.den_scale_pos (by decide) hd) ?_
      rw [val_scale_grid, le_div_iff₀ hpow, cast_fractions, ← zpow_add₀ (by norm_num)]
      refine le_trans (zpow_le_zpow_right₀ (by norm_num) ?_) hlow
      rw [gridExponent, hlog]
      omega
    · exact .inl hleast
  have hpos := F.fractions_pos
  unfold rounded
  dsimp only
  split
  · exact ⟨by dsimp only; omega, by dsimp only; omega, .inr le_rfl⟩
  · exact ⟨by dsimp only; omega, hleast, hlong⟩

/-- A number of the format is left as it is. -/
theorem rounded_of_val_eq (h : F.IsNumber d) (hval : r.val = d.val) : F.rounded r = d := by
  refine (isNumber_rounded hn hd F).eq_of_val_eq h ?_
  rw [val_rounded_of_onGrid hd, hval]
  rw [hval]
  exact d.onGrid.mono (h.gridExponent_le hn hd (hval ▸ h.val_lt))

/-- So is every value with a significand that is not too long. -/
theorem val_rounded_of_le {N : ℕ} {e : ℤ} (hN : N ≤ 2 * F.fractions) (he : F.leastExponent ≤ e)
    (hval : r.val = N * 2 ^ e) : (F.rounded r).val = r.val := by
  rcases hN.lt_or_eq with hlt | rfl
  · refine val_rounded_of_onGrid hd (OnGrid.mono ?_ ⟨N, hval⟩)
    have hlt' : (N : ℚ) < 2 * F.fractions := by exact_mod_cast hlt
    have hval' : r.val < 2 ^ (e + F.fractionBits + 1) := by
      rw [hval, zpow_add₀ (by norm_num), zpow_add₀ (by norm_num), ← cast_fractions, zpow_one,
        mul_assoc, mul_comm]
      gcongr
      linarith
    have hlog := Ratio.log2_lt hn hd hval'
    exact max_le (by omega) he
  · have hnumber : F.IsNumber ⟨F.fractions, e + 1⟩ :=
      ⟨by have := F.fractions_pos; dsimp only; omega, by dsimp only; omega, .inr le_rfl⟩
    have hval' : r.val = (⟨F.fractions, e + 1⟩ : Dyadic).val := by
      rw [hval, Dyadic.val, zpow_add₀ (by norm_num), zpow_one]
      push_cast
      ring
    rw [rounded_of_val_eq hn hd hnumber hval', hval']

/-- Rounding keeps the order. -/
theorem val_rounded_mono (hn' : 0 < r'.num) (hd' : 0 < r'.den) (h : r.val ≤ r'.val) :
    (F.rounded r).val ≤ (F.rounded r').val := by
  have hlog := Ratio.log2_mono hn hd hn' hd' h
  have hgrid : F.gridExponent r ≤ F.gridExponent r' := max_le_max (by omega) le_rfl
  rcases hgrid.lt_or_eq with hlt | heq
  · -- the finer grid ends at a power of two, where the coarser one begins
    have htop : F.gridExponent r' = r'.log2 - F.fractionBits := by
      have hleast : F.leastExponent ≤ F.gridExponent r := le_max_right _ _
      rcases max_choice (r'.log2 - F.fractionBits) F.leastExponent with hmax | hmax
      · exact hmax
      · rw [gridExponent, gridExponent, hmax] at hlt
        exact absurd hlt (not_lt.mpr (le_max_right _ _))
    have hlow : r.log2 - F.fractionBits ≤ F.gridExponent r := le_max_left _ _
    have hpow := onGrid_pow (show F.gridExponent r' ≤ r'.log2 by omega)
    refine le_trans (val_rounded_le hd (hpow.mono hgrid) ?_)
      (le_val_rounded hd' hpow (Ratio.log2_spec hn' hd').1)
    exact (Ratio.log2_spec hn hd).2.le.trans (zpow_le_zpow_right₀ (by norm_num) (by omega))
  · have hround := Ratio.round_mono
      (Ratio.den_scale_pos (b := 2) (k := -F.gridExponent r) (by decide) hd)
      (Ratio.den_scale_pos (b := 2) (k := -F.gridExponent r') (by decide) hd') (by
        rw [val_scale_grid, val_scale_grid, heq]
        gcongr)
    rw [val_rounded, val_rounded, ← heq]
    rw [← heq] at hround
    gcongr

section
variable {N : ℕ} {e : ℤ} (hN : N ≤ 2 * F.fractions) (he : F.leastExponent ≤ e)

include hN he

/-- Rounding does not pass a value with a significand that is not too long. -/
theorem val_rounded_le_of_le (h : r.val ≤ N * 2 ^ e) : (F.rounded r).val ≤ N * 2 ^ e := by
  have hpos : 0 < N := by
    refine Nat.pos_of_ne_zero fun h0 => ?_
    rw [h0, Nat.cast_zero, zero_mul] at h
    exact absurd h (not_le.mpr (Ratio.val_pos hn hd))
  have hval := (⟨N, e⟩ : Dyadic).val_toRatio
  have hnum := Dyadic.num_toRatio_pos (d := ⟨N, e⟩) hpos
  have hden := (⟨N, e⟩ : Dyadic).den_toRatio_pos
  calc (F.rounded r).val ≤ (F.rounded (⟨N, e⟩ : Dyadic).toRatio).val :=
        val_rounded_mono hn hd hnum hden (by rwa [hval])
    _ = N * 2 ^ e := (val_rounded_of_le hnum hden hN he hval).trans hval

theorem le_val_rounded_of_le (h : N * 2 ^ e ≤ r.val) : N * 2 ^ e ≤ (F.rounded r).val := by
  rcases Nat.eq_zero_or_pos N with rfl | hpos
  · rw [Nat.cast_zero, zero_mul, Dyadic.val]
    positivity
  have hval := (⟨N, e⟩ : Dyadic).val_toRatio
  have hnum := Dyadic.num_toRatio_pos (d := ⟨N, e⟩) hpos
  have hden := (⟨N, e⟩ : Dyadic).den_toRatio_pos
  calc N * 2 ^ e = (F.rounded (⟨N, e⟩ : Dyadic).toRatio).val :=
        ((val_rounded_of_le hnum hden hN he hval).trans hval).symm
    _ ≤ (F.rounded r).val := val_rounded_mono hnum hden hn hd (by rwa [hval])

end

end

theorem nearest?_eq_some_iff (hn : 0 < r.num) :
    F.nearest? r = some d ↔ F.rounded r = d ∧ d.exponent + F.fractionBits ≤ F.bias := by
  rw [nearest?_eq hn.ne']
  constructor
  · intro h
    split at h
    · next hexp =>
      obtain rfl := Option.some.inj h
      exact ⟨rfl, hexp⟩
    · cases h
  · rintro ⟨rfl, hexp⟩
    rw [if_pos hexp]

/-- What lies between two ratios that have nearest numbers has one, and it lies between these. -/
theorem exists_nearest?_between {low high : Ratio} {below above : Dyadic} (hlow : 0 < low.num)
    (hlow' : 0 < low.den) (hd : 0 < r.den) (hhigh : 0 < high.den)
    (hbelow : F.nearest? low = some below) (habove : F.nearest? high = some above)
    (hle : low.val ≤ r.val) (hge : r.val ≤ high.val) :
    ∃ d, F.nearest? r = some d ∧ below.val ≤ d.val ∧ d.val ≤ above.val := by
  have hpos := Ratio.val_pos hlow hlow'
  have hn : 0 < r.num := Ratio.num_pos_of_val_pos (hpos.trans_le hle)
  have hn' : 0 < high.num := Ratio.num_pos_of_val_pos (hpos.trans_le (hle.trans hge))
  obtain ⟨rfl, -⟩ := (nearest?_eq_some_iff hlow).mp hbelow
  obtain ⟨rfl, hexp⟩ := (nearest?_eq_some_iff hn').mp habove
  have hval := val_rounded_mono (F := F) hn hd hn' hhigh hge
  have hexp' := (isNumber_rounded hn hd F).exponent_le (isNumber_rounded hn' hhigh F) hval
  exact ⟨F.rounded r, (nearest?_eq_some_iff hn).mpr ⟨rfl, by omega⟩,
    val_rounded_mono hlow hlow' hn hd hle, hval⟩

/-- Within one power of two the grid does not change: what lies symmetrically around a multiple of a
power of two that is at least a step is rounded symmetrically. -/
theorem val_rounded_mirror {j e : ℤ} (hd : 0 < r.den) (hd' : 0 < r'.den) (hlow : (2 : ℚ) ^ j ≤ r.val)
    (hhigh : r.val < 2 ^ (j + 1)) (hlow' : (2 : ℚ) ^ j ≤ r'.val) (hhigh' : r'.val < 2 ^ (j + 1))
    (hx : OnGrid e x) (hj : j - F.fractionBits ≤ e) (he : F.leastExponent ≤ e)
    (h : r.val + r'.val = 2 * x) : (F.rounded r).val + (F.rounded r').val = 2 * x := by
  have hpow : (0 : ℚ) < 2 ^ j := by positivity
  have hlog := Ratio.log2_eq (Ratio.num_pos_of_val_pos (hpow.trans_le hlow)) hd hlow hhigh
  have hlog' := Ratio.log2_eq (Ratio.num_pos_of_val_pos (hpow.trans_le hlow')) hd' hlow' hhigh'
  refine val_rounded_add_val_rounded hd hd' ?_ (hx.mono ?_) h
  · rw [gridExponent, gridExponent, hlog, hlog']
  · rw [gridExponent, hlog]
    exact max_le hj he

theorem isNumber_of_nearest? (hn : 0 < r.num) (hd : 0 < r.den) (h : F.nearest? r = some d) :
    F.IsNumber d := by
  obtain ⟨rfl, -⟩ := (nearest?_eq_some_iff hn).mp h
  exact isNumber_rounded hn hd F

/-- The ratios that one number is nearest to are not interrupted. -/
theorem nearest?_between {low high : Ratio} (hlow : 0 < low.num) (hlow' : 0 < low.den) (hd : 0 < r.den)
    (hhigh : 0 < high.den) (hbelow : F.nearest? low = some d) (habove : F.nearest? high = some d)
    (hle : low.val ≤ r.val) (hge : r.val ≤ high.val) : F.nearest? r = some d := by
  obtain ⟨d', hd', hle', hge'⟩ :=
    exists_nearest?_between hlow hlow' hd hhigh hbelow habove hle hge
  have hn : 0 < r.num := Ratio.num_pos_of_val_pos ((Ratio.val_pos hlow hlow').trans_le hle)
  rw [hd', (isNumber_of_nearest? hn hd hd').eq_of_val_eq (isNumber_of_nearest? hlow hlow' hbelow)
    (le_antisymm hge' hle')]

/-- A number that is not too large is the nearest one to itself. -/
theorem nearest?_of_val_eq (h : F.IsNumber d) (hexp : d.exponent + F.fractionBits ≤ F.bias)
    (hn : 0 < r.num) (hd : 0 < r.den) (hval : r.val = d.val) : F.nearest? r = some d :=
  (nearest?_eq_some_iff hn).mpr ⟨rounded_of_val_eq hn hd h hval, hexp⟩

end BinaryFormat

end DeferredLog
