import DeferredLog.Display.Float
import DeferredLog.Proofs.Number.Rounding
import Mathlib.Tactic.IntervalCases

/-!
# Numbers that cannot be shown

A number of binary32 is shown by the shortest of its roundings that reads back. The search passes the
rounding to four digits, `3403 * 10 ^ 35` for the largest numbers, which is beyond all numbers of
binary32, and then has no answer. This happens from `34025 * 10 ^ 34` on and nowhere else:

    floatText (.f32 p) hint = none ↔ 0x7f7ff9c5 ≤ p % 2 ^ 31 < 0x7f800000       (floatText_eq_none_iff)
-/

namespace DeferredLog.Display

open BinaryFormat (binary32 binary64)

/-- From here on the rounding to four digits lies beyond the largest number of binary32. -/
def roundsOut : ℚ := 34025 * 10 ^ 34

variable {d : Dyadic} {r : Ratio} {count : ℕ}

/-! ## Roundings in range -/

theorem val_nearest (count : ℕ) (r : Ratio) :
    (Decimal.nearest count r).val =
      (r.scale 10 (-Decimal.lastPlace count r)).round * (10 : ℚ) ^ Decimal.lastPlace count r := by
  rw [Decimal.nearest, Decimal.val]

/-- What a ratio is below, scaled to the last place of a rounding, bounds the rounding. -/
theorem val_nearest_le {N : ℕ} (hd : 0 < r.den)
    (h : r.val < (N + 1 / 2) * (10 : ℚ) ^ Decimal.lastPlace count r) :
    (Decimal.nearest count r).val ≤ N * (10 : ℚ) ^ Decimal.lastPlace count r := by
  have hround : (r.scale 10 (-Decimal.lastPlace count r)).round ≤ N := by
    refine Ratio.round_le (Ratio.den_scale_pos (by decide) hd) ?_
    rw [Ratio.val_scale (by decide), zpow_neg, ← div_eq_mul_inv, Nat.cast_ofNat,
      div_lt_iff₀ (by positivity)]
    exact h
  rw [val_nearest]
  gcongr

theorem nearest_le_roundsOut (hn : 0 < r.num) (hd : 0 < r.den) (h : r.val < roundsOut)
    (hcount : 1 ≤ count) (hcount' : count ≤ 9) : (Decimal.nearest count r).val ≤ roundsOut := by
  have hlog := Ratio.log10_spec hn hd
  have hlt : r.log10 < 39 := by
    refine (zpow_lt_zpow_iff_right₀ (a := (10 : ℚ)) (by norm_num)).mp (hlog.1.trans_lt (h.trans ?_))
    norm_num [roundsOut]
  rcases Int.lt_or_eq_of_le (show r.log10 ≤ 38 by omega) with hlow | htop
  · -- below `10 ^ 38` a rounding leads to the next power of ten at most
    have hplace : Decimal.lastPlace count r = r.log10 + 1 - count := by
      unfold Decimal.lastPlace
      omega
    have hpow : ((10 ^ count : ℕ) : ℚ) * 10 ^ Decimal.lastPlace count r = 10 ^ (r.log10 + 1) := by
      rw [hplace, Nat.cast_pow, Nat.cast_ofNat, ← zpow_natCast, ← zpow_add₀ (by norm_num)]
      congr 1
      omega
    have hpos : (0 : ℚ) < 10 ^ Decimal.lastPlace count r := by positivity
    calc (Decimal.nearest count r).val
        ≤ (10 ^ count : ℕ) * 10 ^ Decimal.lastPlace count r := by
          refine val_nearest_le hd (hlog.2.trans_le ?_)
          rw [← hpow]
          gcongr
          linarith
      _ = 10 ^ (r.log10 + 1) := hpow
      _ ≤ (10 : ℚ) ^ (38 : ℤ) := zpow_le_zpow_right₀ (by norm_num) (by omega)
      _ ≤ roundsOut := by norm_num [roundsOut]
  · -- from there on the last places are known
    have hplace : Decimal.lastPlace count r = 39 - count := by
      unfold Decimal.lastPlace
      omega
    refine (val_nearest_le (N := 34025 * 10 ^ count / 10 ^ 5) hd (h.trans_le ?_)).trans ?_
    · rw [hplace]
      interval_cases count <;> norm_num [roundsOut]
    · rw [hplace]
      interval_cases count <;> norm_num [roundsOut]

theorem roundsOut_lt_pow : roundsOut < (2 : ℚ) ^ ((127 : ℤ) + 1) := by norm_num [roundsOut]

theorem roundsOut_lt_limit : roundsOut < binary64.limit :=
  roundsOut_lt_pow.trans_le
    ((zpow_le_zpow_right₀ (by norm_num) (by decide)).trans binary64.pow_bias_le_limit)

/-- A decimal in range reads as a number that binary32 has a nearest number for. -/
theorem exists_read_nearest? {decimal : Decimal} (h : decimal.val ≤ roundsOut) :
    ∃ candidate single, decimal.read = some candidate ∧
      binary32.nearest? candidate.toRatio = some single := by
  obtain ⟨candidate, hread, hval⟩ := BinaryFormat.exists_nearest?_le (F := binary64) (k := 127)
    (r := decimal.toRatio) (by decide) decimal.den_toRatio_pos
    (by rw [Decimal.val_toRatio]; exact h.trans_lt roundsOut_lt_limit)
    (by rw [Decimal.val_toRatio]; exact h.trans_lt roundsOut_lt_pow) (by decide)
  -- reading is off by at most `2 ^ 74`, which the largest number of binary32 is well beyond
  have hcandidate : candidate.val ≤ roundsOut + 2 ^ 74 := by
    refine hval.trans ?_
    rw [Decimal.val_toRatio, show (127 : ℤ) - binary64.fractionBits = 75 from rfl]
    norm_num
    linarith
  obtain ⟨single, hsingle, -⟩ := BinaryFormat.exists_nearest?_le (F := binary32) (k := 127)
    (r := candidate.toRatio) (by decide) candidate.den_toRatio_pos
    (by
      rw [Dyadic.val_toRatio]
      refine hcandidate.trans_lt ?_
      have hfr : binary32.fractions = 8388608 := by decide
      have hexp : (binary32.bias : ℤ) - binary32.fractionBits = 104 := by decide
      rw [BinaryFormat.limit, hfr, hexp]
      norm_num [roundsOut])
    (by
      rw [Dyadic.val_toRatio]
      refine hcandidate.trans_lt ?_
      norm_num [roundsOut]) (by decide)
  exact ⟨candidate, single, hread, hsingle⟩

/-- Below, the search has an answer. -/
theorem exists_shortenFrom (hs : d.significand ≠ 0) (hd : d.val < roundsOut) (tries : ℕ)
    (hcount : 1 ≤ count) (hcount' : count + tries = 10) :
    ∃ shown, shortenFrom d count tries = some (some shown) := by
  have hnum : 0 < d.toRatio.num := by
    refine Ratio.num_pos_of_val_pos ?_
    rw [Dyadic.val_toRatio]
    exact mul_pos (by exact_mod_cast Nat.pos_of_ne_zero hs) (by positivity)
  induction tries generalizing count with
  | zero =>
    obtain ⟨shown, hshown, -⟩ := BinaryFormat.exists_nearest?_le (F := binary64) (k := 127)
      (r := d.toRatio) (by decide) d.den_toRatio_pos
      (by rw [Dyadic.val_toRatio]; exact hd.trans roundsOut_lt_limit)
      (by rw [Dyadic.val_toRatio]; exact hd.trans roundsOut_lt_pow) (by decide)
    exact ⟨shown, congrArg some hshown⟩
  | succ tries ih =>
    have hle := nearest_le_roundsOut hnum d.den_toRatio_pos
      (by rwa [Dyadic.val_toRatio]) hcount (by omega)
    obtain ⟨candidate, single, hread, hsingle⟩ := exists_read_nearest? hle
    simp only [shortenFrom, hread, hsingle]
    split
    · exact ⟨candidate, rfl⟩
    · exact ih (by omega) (by omega)

/-! ## Roundings out of range -/

/-- The rounding of a number that is a little beyond `34025 * 10 ^ 34`. -/
theorem nearest_eq {N : ℕ} {place : ℤ} (hplace : 39 - (count : ℤ) = place) (hd : 0 < r.den)
    (hlow : roundsOut < r.val) (hhigh : r.val < 34029 * 10 ^ 34)
    (hN : (N - 1 / 2 : ℚ) * 10 ^ place ≤ roundsOut)
    (hN' : (34029 * 10 ^ 34 : ℚ) ≤ (N + 1 / 2) * 10 ^ place) (hcount : 1 ≤ count) :
    Decimal.nearest count r = ⟨N, place⟩ := by
  have hn : 0 < r.num := Ratio.num_pos_of_val_pos (lt_trans (by norm_num [roundsOut]) hlow)
  have hlog : r.log10 = 38 := by
    refine Ratio.log10_eq hn hd (le_trans ?_ hlow.le) (hhigh.trans ?_) <;> norm_num [roundsOut]
  have hlast : Decimal.lastPlace count r = place := by
    unfold Decimal.lastPlace
    omega
  have hscaled : (r.scale 10 (-place)).val = r.val / 10 ^ place := by
    rw [Ratio.val_scale (by decide), zpow_neg, ← div_eq_mul_inv, Nat.cast_ofNat]
  have hpos : (0 : ℚ) < 10 ^ place := by positivity
  have hround : (r.scale 10 (-place)).round = N := by
    refine le_antisymm (Ratio.round_le (Ratio.den_scale_pos (by decide) hd) ?_)
      (Ratio.le_round (Ratio.den_scale_pos (by decide) hd) ?_)
    · rw [hscaled, div_lt_iff₀ hpos]
      exact hhigh.trans_le hN'
    · rw [hscaled, lt_div_iff₀ hpos]
      exact hN.trans_lt hlow
  rw [Decimal.nearest, hlast, hround]

/-- A rounding that reads as another number is passed. -/
theorem shortenFrom_pass {tries : ℕ} {decimal : Decimal} {candidate single : Dyadic}
    (hnearest : Decimal.nearest count d.toRatio = decimal) (hread : decimal.read = some candidate)
    (hsingle : binary32.nearest? candidate.toRatio = some single) (hne : single ≠ d) :
    shortenFrom d count (tries + 1) = shortenFrom d (count + 1) tries := by
  simp only [shortenFrom, hnearest, hread, hsingle, if_neg hne]

/-- The search ends at a rounding that is out of range. -/
theorem shortenFrom_stop {tries : ℕ} {decimal : Decimal} {candidate : Dyadic}
    (hnearest : Decimal.nearest count d.toRatio = decimal) (hread : decimal.read = some candidate)
    (hsingle : binary32.nearest? candidate.toRatio = none) : shortenFrom d count (tries + 1) = none := by
  simp only [shortenFrom, hnearest, hread, hsingle]

theorem val_topmost (s : ℕ) : (⟨s, 104⟩ : Dyadic).val = s * 2 ^ 104 := by
  rw [Dyadic.val, show (104 : ℤ) = (104 : ℕ) from rfl, zpow_natCast]

/-- The search passes three roundings that do not read back, and ends at one that is out of range. -/
theorem shortenFrom_eq_none {s : ℕ} (hlow : 0xfff9c5 ≤ s) (hhigh : s < 2 ^ 24) :
    shortenFrom ⟨s, 104⟩ 1 9 = none := by
  have hd := (⟨s, 104⟩ : Dyadic).den_toRatio_pos
  have hs : (0xfff9c5 : ℚ) ≤ s := by exact_mod_cast hlow
  have hs' : (s : ℚ) < 2 ^ 24 := by exact_mod_cast hhigh
  have hmin : roundsOut < (⟨s, 104⟩ : Dyadic).toRatio.val := by
    rw [Dyadic.val_toRatio, val_topmost]
    refine lt_of_lt_of_le ?_ (mul_le_mul_of_nonneg_right hs (by positivity))
    norm_num [roundsOut]
  have hmax : (⟨s, 104⟩ : Dyadic).toRatio.val < 34029 * 10 ^ 34 := by
    rw [Dyadic.val_toRatio, val_topmost]
    refine (mul_lt_mul_of_pos_right hs' (by positivity)).trans ?_
    norm_num
  have hother (k : ℕ) (hk : k < 0xfff9c5) : (⟨k, 104⟩ : Dyadic) ≠ ⟨s, 104⟩ := by
    intro heq
    exact absurd (congrArg Dyadic.significand heq) (hk.trans_le hlow).ne
  have one : Decimal.nearest 1 (⟨s, 104⟩ : Dyadic).toRatio = ⟨3, 38⟩ :=
    nearest_eq rfl hd hmin hmax (by norm_num [roundsOut]) (by norm_num) (by decide)
  have two : Decimal.nearest 2 (⟨s, 104⟩ : Dyadic).toRatio = ⟨34, 37⟩ :=
    nearest_eq rfl hd hmin hmax (by norm_num [roundsOut]) (by norm_num) (by decide)
  have three : Decimal.nearest 3 (⟨s, 104⟩ : Dyadic).toRatio = ⟨340, 36⟩ :=
    nearest_eq rfl hd hmin hmax (by norm_num [roundsOut]) (by norm_num) (by decide)
  have four : Decimal.nearest 4 (⟨s, 104⟩ : Dyadic).toRatio = ⟨3403, 35⟩ :=
    nearest_eq rfl hd hmin hmax (by norm_num [roundsOut]) (by norm_num) (by decide)
  have read_one : (⟨3, 38⟩ : Decimal).read = some ⟨7940933880509066, 75⟩ := by decide
  have single_one : binary32.nearest? (⟨7940933880509066, 75⟩ : Dyadic).toRatio =
      some ⟨14791142, 104⟩ := by decide
  have read_two : (⟨34, 37⟩ : Decimal).read = some ⟨8999725064576941, 75⟩ := by decide
  have read_three : (⟨340, 36⟩ : Decimal).read = some ⟨8999725064576941, 75⟩ := by decide
  have single_two : binary32.nearest? (⟨8999725064576941, 75⟩ : Dyadic).toRatio =
      some ⟨16763294, 104⟩ := by decide
  have read_four : (⟨3403, 35⟩ : Decimal).read = some ⟨4503832999228725, 76⟩ := by decide
  have single_four : binary32.nearest? (⟨4503832999228725, 76⟩ : Dyadic).toRatio = none := by decide
  calc shortenFrom ⟨s, 104⟩ 1 9
      = shortenFrom ⟨s, 104⟩ 2 8 :=
        shortenFrom_pass one read_one single_one (hother _ (by decide))
    _ = shortenFrom ⟨s, 104⟩ 3 7 :=
        shortenFrom_pass two read_two single_two (hother _ (by decide))
    _ = shortenFrom ⟨s, 104⟩ 4 6 :=
        shortenFrom_pass three read_three single_two (hother _ (by decide))
    _ = none := shortenFrom_stop four read_four single_four

/-! ## Patterns -/

/-- Whether a pattern of binary32 stands for a number beyond `34025 * 10 ^ 34`. -/
def RoundsOut (p : UInt32) : Prop := 0x7f7ff9c5 ≤ p.toNat % 2 ^ 31 ∧ p.toNat % 2 ^ 31 < 0x7f800000

theorem decode_binary32 (n : ℕ) :
    binary32.decode n =
      if n / 2 ^ 23 % 256 = 255 then
        if n % 2 ^ 23 = 0 then .infinite (n / 2 ^ 23 / 256 % 2 = 1) else .nan
      else if n / 2 ^ 23 % 256 = 0 then .finite (n / 2 ^ 23 / 256 % 2 = 1) ⟨n % 2 ^ 23, -149⟩
      else .finite (n / 2 ^ 23 / 256 % 2 = 1)
        ⟨2 ^ 23 + n % 2 ^ 23, -149 + (n / 2 ^ 23 % 256 - 1 : ℕ)⟩ := rfl

theorem val_lt_roundsOut {s : ℕ} {e : ℤ} (h : s < 2 ^ 24 ∧ e ≤ 103 ∨ s < 0xfff9c5 ∧ e = 104) :
    (⟨s, e⟩ : Dyadic).val < roundsOut := by
  rw [Dyadic.val]
  rcases h with ⟨hs, he⟩ | ⟨hs, rfl⟩
  · have hs' : (s : ℚ) ≤ 2 ^ 24 := by exact_mod_cast hs.le
    calc (s : ℚ) * 2 ^ e ≤ 2 ^ 24 * 2 ^ (103 : ℤ) :=
          mul_le_mul hs' (zpow_le_zpow_right₀ (by norm_num) he) (by positivity) (by positivity)
      _ < roundsOut := by norm_num [roundsOut]
  · have hs' : (s : ℚ) ≤ 0xfff9c4 := by exact_mod_cast Nat.lt_succ_iff.mp hs
    calc (s : ℚ) * 2 ^ (104 : ℤ) ≤ 0xfff9c4 * 2 ^ (104 : ℤ) :=
          mul_le_mul_of_nonneg_right hs' (by positivity)
      _ < roundsOut := by norm_num [roundsOut]

theorem isSome_shorten (h : d.val < roundsOut) : (shorten d).isSome = true := by
  unfold shorten
  split
  · rfl
  · next hs =>
    obtain ⟨shown, hshown⟩ := exists_shortenFrom hs h 9 le_rfl rfl
    rw [hshown]
    rfl

theorem shorten_eq_none {s : ℕ} (hlow : 0xfff9c5 ≤ s) (hhigh : s < 2 ^ 24) :
    shorten ⟨s, 104⟩ = none := by
  rw [shorten, if_neg (show s ≠ 0 by omega), shortenFrom_eq_none hlow hhigh]
  rfl

theorem binaryText_finite_eq_none_iff {show? : Dyadic → Option Dyadic} {hint : Option Hint}
    {negative : Bool} : binaryText show? hint (.finite negative d) = none ↔ show? d = none := by
  simp [binaryText]

/-- The numbers from there on, and no others, cannot be shown. -/
theorem floatText_eq_none_iff (v : FloatValue) (hint : Option Hint) :
    floatText v hint = none ↔ ∃ p, v = .f32 p ∧ RoundsOut p := by
  cases v with
  | f64 p =>
    have hsome : floatText (.f64 p) hint ≠ none := by
      rw [floatText]
      cases binary64.decode p.toNat <;> simp [binaryText]
    simp [hsome]
  | f32 p =>
    simp only [FloatValue.f32.injEq, exists_eq_left', RoundsOut, floatText, decode_binary32]
    generalize p.toNat = n
    by_cases hspecial : n / 2 ^ 23 % 256 = 255
    · refine iff_of_false ?_ (by omega)
      rw [if_pos hspecial]
      split <;> simp [binaryText]
    rw [if_neg hspecial]
    by_cases htop : 0x7f7ff9c5 ≤ n % 2 ^ 31
    · -- the largest exponent, with a significand from `0xfff9c5` on
      have hfield : n / 2 ^ 23 % 256 = 254 := by omega
      have hin : n % 2 ^ 31 < 0x7f800000 := by omega
      rw [if_neg (by omega), binaryText_finite_eq_none_iff, hfield]
      exact iff_of_true (shorten_eq_none (by omega) (by omega)) ⟨htop, hin⟩
    · have hsome (d : Dyadic) (hd : d.val < roundsOut) : shorten d ≠ none :=
        Option.isSome_iff_ne_none.mp (isSome_shorten hd)
      refine iff_of_false ?_ fun h => htop h.1
      split
      · rw [binaryText_finite_eq_none_iff]
        exact hsome _ (val_lt_roundsOut (.inl ⟨by omega, by omega⟩))
      · rw [binaryText_finite_eq_none_iff]
        refine hsome _ (val_lt_roundsOut ?_)
        by_cases hfield : n / 2 ^ 23 % 256 = 254
        · exact .inr ⟨by omega, by omega⟩
        · exact .inl ⟨by omega, by omega⟩

end DeferredLog.Display
