import DeferredLog.Proofs.Number.Significant
import DeferredLog.Proofs.Number.Single

/-!
# Neighbouring decimals

No decimal of so many digits lies between the two neighbours of a rational (`Decimal.Neighbours`). What is
read as one number is an interval (`IsInterval`), so one of the neighbours is read as it whenever some
decimal of as many digits is, and the search for the shortest decimal ends there at the latest:

    other.read = some c → other.precision ≤ count → (shortest c).read = some c ∧
      (shortest c).precision ≤ count                                                   (shortest_spec)
-/

namespace DeferredLog

open BinaryFormat (binary32 binary64)

/-- A property of ratios that holds between any two ratios which have it. -/
def IsInterval (S : Ratio → Prop) : Prop :=
  ∀ low r high : Ratio, 0 < low.den → 0 < r.den → 0 < high.den → S low → S high →
    low.val ≤ r.val → r.val ≤ high.val → S r

theorem isInterval_nearest? {F : BinaryFormat} {d : Dyadic} (hs : 0 < d.significand) :
    IsInterval (F.nearest? · = some d) := by
  intro low r high hlow hd hhigh hbelow habove
  exact BinaryFormat.nearest?_between (BinaryFormat.significand_pos_of_nearest? hs hbelow) hlow hd hhigh
    hbelow habove

theorem isInterval_single? {d : Dyadic} (hs : 0 < d.significand) :
    IsInterval (Ratio.single? · = some d) :=
  fun _ _ _ hlow hd hhigh hbelow habove => Ratio.single?_between hs hlow hd hhigh hbelow habove

namespace Decimal

variable {e other : Decimal} {r : Ratio} {count f : ℕ} {S : Ratio → Prop}

/-! ## Neighbours -/

/-- The numbers with the digits `f` and `f + 1` are the neighbours of a rational among the decimals of
`count` digits. -/
structure Neighbours (count : ℕ) (r : Ratio) (f : ℕ) : Prop where
  neighbours :
    nearest count r = ⟨f, lastPlace count r⟩ ∧ otherNeighbour count r = ⟨f + 1, lastPlace count r⟩ ∨
    nearest count r = ⟨f + 1, lastPlace count r⟩ ∧ otherNeighbour count r = ⟨f, lastPlace count r⟩
  le : f * (10 : ℚ) ^ lastPlace count r ≤ r.val
  lt : r.val < (f + 1) * (10 : ℚ) ^ lastPlace count r
  long : 10 ^ (count - 1) ≤ f
  short : f < 10 ^ count

theorem val_scale_lastPlace (count : ℕ) (r : Ratio) :
    (r.scale 10 (-lastPlace count r)).val = r.val / 10 ^ lastPlace count r := by
  rw [Ratio.val_scale (by decide), zpow_neg, ← div_eq_mul_inv, Nat.cast_ofNat]

/-- The nearest decimal is off by at most half a step. -/
theorem abs_nearest_sub_le (hd : 0 < r.den) :
    |(nearest count r).val - r.val| ≤ 10 ^ lastPlace count r / 2 := by
  have hpow : (0 : ℚ) < 10 ^ lastPlace count r := by positivity
  have hround := Ratio.abs_round_sub_val
    (Ratio.den_scale_pos (b := 10) (k := -lastPlace count r) (by decide) hd)
  rw [val_scale_lastPlace] at hround
  have hval : (nearest count r).val - r.val = ((r.scale 10 (-lastPlace count r)).round -
      r.val / 10 ^ lastPlace count r) * 10 ^ lastPlace count r := by
    rw [sub_mul, div_mul_cancel₀ _ hpow.ne']
    rfl
  rw [hval, abs_mul, abs_of_pos hpow]
  calc _ ≤ 1 / 2 * (10 : ℚ) ^ lastPlace count r := by gcongr
    _ = _ := by ring

/-- The last place is so many places behind the first digit. -/
theorem log10_eq_add (hcount : 1 ≤ count) :
    r.log10 = lastPlace count r + (count - 1 : ℕ) ∧ r.log10 + 1 = lastPlace count r + count := by
  rw [lastPlace]
  omega

section
variable (hn : 0 < r.num) (hd : 0 < r.den)

include hn hd

theorem val_lt_pow (hcount : 1 ≤ count) : r.val < 10 ^ count * (10 : ℚ) ^ lastPlace count r := by
  rw [← zpow_natCast, ← zpow_add₀ (by norm_num), add_comm, ← (log10_eq_add hcount).2]
  exact (Ratio.log10_spec hn hd).2

theorem pow_le_val (hcount : 1 ≤ count) : 10 ^ (count - 1) * (10 : ℚ) ^ lastPlace count r ≤ r.val := by
  rw [← zpow_natCast, ← zpow_add₀ (by norm_num), add_comm, ← (log10_eq_add hcount).1]
  exact (Ratio.log10_spec hn hd).1

theorem exists_neighbours (hcount : 1 ≤ count) : ∃ f, Neighbours count r f := by
  have hpow : (0 : ℚ) < 10 ^ lastPlace count r := by positivity
  have hden := Ratio.den_scale_pos (b := 10) (k := -lastPlace count r) (by decide) hd
  have hval := val_scale_lastPlace count r
  have hnear : nearest count r = ⟨(r.scale 10 (-lastPlace count r)).round, lastPlace count r⟩ := rfl
  have hother : otherNeighbour count r =
      ⟨if (r.scale 10 (-lastPlace count r)).round = (r.scale 10 (-lastPlace count r)).floor then
        (r.scale 10 (-lastPlace count r)).floor + 1 else (r.scale 10 (-lastPlace count r)).floor,
        lastPlace count r⟩ := rfl
  generalize r.scale 10 (-lastPlace count r) = scaled at hden hval hnear hother
  have hden' : (0 : ℚ) < scaled.den := by exact_mod_cast hden
  have hle : (scaled.floor : ℚ) ≤ r.val / 10 ^ lastPlace count r := by
    rw [← hval, Ratio.val, le_div_iff₀ hden']
    exact_mod_cast Nat.div_mul_le_self scaled.num scaled.den
  have hlt : r.val / 10 ^ lastPlace count r < (scaled.floor + 1 : ℕ) := by
    rw [← hval, Ratio.val, div_lt_iff₀ hden']
    exact_mod_cast Nat.lt_mul_of_div_lt (Nat.lt_succ_self scaled.floor) hden
  have hround : scaled.round = scaled.floor ∨ scaled.round = scaled.floor + 1 := by
    unfold Ratio.round Ratio.floor
    dsimp only
    split
    · exact .inl rfl
    · split
      · exact .inr rfl
      · split
        · exact .inl rfl
        · exact .inr rfl
  have hlow : ((10 ^ (count - 1) : ℕ) : ℚ) ≤ r.val / 10 ^ lastPlace count r := by
    rw [le_div_iff₀ hpow, Nat.cast_pow, Nat.cast_ofNat]
    exact pow_le_val hn hd hcount
  have hhigh : r.val / 10 ^ lastPlace count r < (10 ^ count : ℕ) := by
    rw [div_lt_iff₀ hpow, Nat.cast_pow, Nat.cast_ofNat]
    exact val_lt_pow hn hd hcount
  refine ⟨scaled.floor, ?_, ?_, ?_, ?_, ?_⟩
  · rcases hround with h | h
    · left
      rw [hnear, hother, if_pos h, h]
      exact ⟨rfl, rfl⟩
    · right
      rw [hnear, hother, if_neg (by omega), h]
      exact ⟨rfl, rfl⟩
  · rwa [← le_div_iff₀ hpow]
  · rw [← div_lt_iff₀ hpow]
    exact_mod_cast hlt
  · exact Nat.lt_succ_iff.mp (by exact_mod_cast hlow.trans_lt hlt)
  · exact_mod_cast hle.trans_lt hhigh

end

namespace Neighbours

variable (h : Neighbours count r f)

include h

theorem precision_le (hcount : 1 ≤ count) :
    (nearest count r).precision ≤ count ∧ (otherNeighbour count r).precision ≤ count := by
  have hshort := h.short
  rcases h.neighbours with ⟨hnear, hother⟩ | ⟨hnear, hother⟩ <;> rw [hnear, hother] <;>
    exact ⟨precision_le_of_le hcount (by dsimp only; omega),
      precision_le_of_le hcount (by dsimp only; omega)⟩

/-- The neighbours are a step apart. -/
theorem abs_add_abs : |(nearest count r).val - r.val| + |(otherNeighbour count r).val - r.val| =
    10 ^ lastPlace count r := by
  have hle := h.le
  have hlt := h.lt
  rcases h.neighbours with ⟨hnear, hother⟩ | ⟨hnear, hother⟩ <;> rw [hnear, hother, val, val] <;>
    dsimp only <;> push_cast
  · rw [abs_of_nonpos (by linarith), abs_of_pos (by linarith)]
    ring
  · rw [abs_of_pos (by linarith), abs_of_nonpos (by linarith)]
    ring

/-- The nearest one lies between the rational and the mirror image of the other one. -/
theorem nearest_between (hd : 0 < r.den) :
    2 * r.val - (otherNeighbour count r).val ≤ (nearest count r).val ∧ (nearest count r).val ≤ r.val ∨
    r.val ≤ (nearest count r).val ∧ (nearest count r).val ≤ 2 * r.val - (otherNeighbour count r).val := by
  have hle := h.le
  have hlt := h.lt
  have hclose := abs_le.mp (@abs_nearest_sub_le r count hd)
  rcases h.neighbours with ⟨hnear, hother⟩ | ⟨hnear, hother⟩
  · left
    rw [hnear, val] at hclose ⊢
    rw [hother, val]
    push_cast
    constructor <;> linarith
  · right
    rw [hnear, val] at hclose ⊢
    rw [hother, val]
    push_cast at hclose ⊢
    constructor <;> linarith

/-- No decimal of as many digits lies between the neighbours. -/
theorem le_or_le (hcount : 1 ≤ count) (hdigits : e.digits < 10 ^ count) :
    e.val ≤ f * (10 : ℚ) ^ lastPlace count r ∨ (f + 1) * (10 : ℚ) ^ lastPlace count r ≤ e.val := by
  have hpow : (0 : ℚ) < 10 ^ lastPlace count r := by positivity
  rcases le_or_gt (lastPlace count r) e.exponent with hle | hlt
  · obtain ⟨k, hk⟩ := Int.le.dest hle
    have hval : e.val = (e.digits * 10 ^ k : ℕ) * (10 : ℚ) ^ lastPlace count r := by
      rw [val, ← hk, zpow_add₀ (by norm_num), zpow_natCast]
      push_cast
      ring
    rw [hval]
    rcases Nat.lt_or_ge f (e.digits * 10 ^ k) with hlt | hge
    · right
      gcongr
      exact_mod_cast hlt
    · left
      gcongr
  · -- on a finer grid, so few digits stay below the first of these
    left
    have hlong : ((10 ^ (count - 1) : ℕ) : ℚ) ≤ f := by exact_mod_cast h.long
    have hdigits' : (e.digits : ℚ) ≤ (10 ^ count : ℕ) := by exact_mod_cast hdigits.le
    calc e.val ≤ (10 ^ count : ℕ) * (10 : ℚ) ^ e.exponent := by
          rw [val]
          gcongr
      _ = (10 : ℚ) ^ (count + e.exponent) := by
          rw [Nat.cast_pow, Nat.cast_ofNat, ← zpow_natCast, ← zpow_add₀ (by norm_num)]
      _ ≤ (10 : ℚ) ^ ((count - 1 : ℕ) + lastPlace count r) :=
          zpow_le_zpow_right₀ (by norm_num) (by omega)
      _ = (10 ^ (count - 1) : ℕ) * (10 : ℚ) ^ lastPlace count r := by
          rw [Nat.cast_pow, Nat.cast_ofNat, zpow_add₀ (by norm_num), zpow_natCast]
      _ ≤ f * (10 : ℚ) ^ lastPlace count r := by gcongr

/-- If a decimal of as many digits has the property of an interval around a rational, one of the
neighbours has it. -/
theorem of_isInterval (hS : IsInterval S) (hcount : 1 ≤ count) (hd : 0 < r.den) (hr : S r)
    (hprecision : other.precision ≤ count) (hother : S other.toRatio) :
    S (nearest count r).toRatio ∨ S (otherNeighbour count r).toRatio := by
  obtain ⟨e, hval, hdigits⟩ := precision_le_iff.mp hprecision
  have hside : S (⟨f, lastPlace count r⟩ : Decimal).toRatio ∨
      S (⟨f + 1, lastPlace count r⟩ : Decimal).toRatio := by
    rcases h.le_or_le hcount hdigits with hle | hge
    · refine .inl (hS _ _ _ other.den_toRatio_pos (den_toRatio_pos _) hd hother hr ?_ ?_)
      · rwa [val_toRatio, val_toRatio, ← hval]
      · rw [val_toRatio]
        exact h.le
    · refine .inr (hS _ _ _ hd (den_toRatio_pos _) other.den_toRatio_pos hr hother ?_ ?_)
      · rw [val_toRatio, val, Nat.cast_add, Nat.cast_one]
        exact h.lt.le
      · rwa [val_toRatio, val_toRatio, ← hval, val, Nat.cast_add, Nat.cast_one]
  rcases h.neighbours with ⟨hnear, hother⟩ | ⟨hnear, hother⟩ <;> rw [hnear, hother]
  · exact hside
  · exact hside.symm

end Neighbours

/-! ## The shortest decimal -/

/-- The search for the shortest decimal ends where some decimal is read as the number. -/
theorem shortestFrom_spec {c : Dyadic} (hs : 0 < c.significand)
    (hself : binary64.nearest? c.toRatio = some c) (hread : other.read = some c)
    (hprecision : other.precision ≤ count) (tries : ℕ) {first : ℕ} (hfirst : 1 ≤ first)
    (hle : first ≤ count) (hlt : count < first + tries) :
    (shortestFrom c first tries).read = some c ∧ (shortestFrom c first tries).precision ≤ count := by
  induction tries generalizing first with
  | zero => omega
  | succ tries ih =>
    obtain ⟨f, h⟩ := exists_neighbours (Dyadic.num_toRatio_pos hs) c.den_toRatio_pos hfirst
    obtain ⟨hnear, hother⟩ := h.precision_le hfirst
    simp only [shortestFrom]
    split
    · next hread => exact ⟨hread, hnear.trans hle⟩
    · next hpass =>
      split
      · next hread => exact ⟨hread, hother.trans hle⟩
      · next hpass' =>
        refine ih (by omega) ?_ (by omega)
        by_contra hend
        obtain rfl : first = count := by omega
        rcases h.of_isInterval (isInterval_nearest? hs) hfirst c.den_toRatio_pos hself hprecision hread
          with hnear | hother
        · exact hpass hnear
        · exact hpass' hother

/-- A number that is read from a decimal is shown with as many digits at most, and read back. -/
theorem shortest_spec {c : Dyadic} (hs : 0 < c.significand) (hread : other.read = some c)
    (hprecision : other.precision ≤ count) (hcount : 1 ≤ count) (hcount' : count ≤ 16) :
    (shortest c).read = some c ∧ (shortest c).precision ≤ count := by
  have hn := BinaryFormat.significand_pos_of_nearest? hs hread
  have hnumber := BinaryFormat.isNumber_of_nearest? hn other.den_toRatio_pos hread
  have hself := BinaryFormat.nearest?_of_val_eq hnumber
    ((BinaryFormat.nearest?_eq_some_iff hn).mp hread).2 (Dyadic.num_toRatio_pos hs) c.den_toRatio_pos
    c.val_toRatio
  rw [shortest, if_neg hs.ne']
  exact shortestFrom_spec hs hself hread hprecision 16 le_rfl hcount (by omega)

end Decimal

end DeferredLog
