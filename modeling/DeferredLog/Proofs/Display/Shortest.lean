import DeferredLog.Display.Float
import DeferredLog.Proofs.Display.FloatRange
import DeferredLog.Proofs.Number.Shortest

/-!
# Numbers of binary32 as text

A number of binary32 is shown as the shortest decimal of the number of binary64 that its first rounding
which reads back is read as. What is shown is read back, and has no more significant digits than this
rounding. The search tries only the nearest decimal of so many digits. This misses the shortest decimal
where only the farther neighbour is read as the number, which happens at three magnitudes, `2 ^ -96`,
`2 ^ 87` and `2 ^ 90`. They are shown with nine digits, and eight would do:

    text shown for p → read? text = some (sign of p, printed) with printed.single? = p, and
    printed is shortest if and only if p is none of the three                   (floatText_shortest_iff)
-/

namespace DeferredLog.Display

open BinaryFormat (binary32 binary64)
open Decimal

/-- The patterns without a sign of the numbers that are shown with a digit too many. -/
def overlong : List ℕ := [0x0f800000, 0x6b000000, 0x6c800000]

variable {d candidate : Dyadic} {count : ℕ}

/-! ## The search -/

/-- The search ends at the first rounding that reads back, with nine digits at the latest. -/
theorem shortenFrom_spec (hnine : (nearest 9 d.toRatio).single? = some d) (tries : ℕ)
    (hcount : count + tries = 10) (hcount' : count ≤ 9)
    (hshorten : shortenFrom d count tries = some (some candidate)) :
    ∃ n, count ≤ n ∧ n ≤ 9 ∧ (nearest n d.toRatio).read = some candidate ∧
      binary32.nearest? candidate.toRatio = some d ∧
      ∀ k, count ≤ k → k < n → (nearest k d.toRatio).single? ≠ some d := by
  induction tries generalizing count with
  | zero => omega
  | succ tries ih =>
    simp only [shortenFrom] at hshorten
    split at hshorten
    · cases hshorten
    · next c hread =>
      have hsingle := single?_of_read hread
      split at hshorten
      · cases hshorten
      · next single hnearest =>
        rw [hnearest] at hsingle
        split at hshorten
        · next heq =>
          obtain rfl := Option.some.inj (Option.some.inj hshorten)
          exact ⟨count, le_rfl, hcount', hread, heq ▸ hnearest, fun k hle hlt => absurd hle (by omega)⟩
        · next hne =>
          have hpass : (nearest count d.toRatio).single? ≠ some d := by
            rw [hsingle]
            exact fun heq => hne (Option.some.inj heq)
          have hlast : count ≠ 9 := by
            rintro rfl
            exact hpass hnine
          obtain ⟨n, hle, hn, hread', hnearest', hfirst⟩ := ih (by omega) (by omega) hshorten
          refine ⟨n, by omega, hn, hread', hnearest', fun k hk hlt => ?_⟩
          rcases hk.eq_or_lt with rfl | hk
          · exact hpass
          · exact hfirst k hk hlt

/-! ## The decimal shown -/

/-- A positive number is read back from the shortest decimal of the number that is shown for it. No decimal
with fewer digits is read as it, if the search does not overlook one. -/
theorem shortest_shorten (h : IsSingle d) (hshorten : shorten d = some candidate) :
    (shortest candidate).single? = some d ∧
      (d ∉ overlooked → ∀ other : Decimal, other.single? = some d →
        (shortest candidate).precision ≤ other.precision) := by
  rw [shorten, if_neg h.pos.ne', Option.join_eq_some_iff] at hshorten
  obtain ⟨n, hone, hnine, hread, hnearest, hfirst⟩ :=
    shortenFrom_spec h.single?_nearest_nine 9 rfl (by decide) hshorten
  have hpos : 0 < candidate.significand := by
    refine Dyadic.significand_pos_of_val_pos ?_
    rw [← Dyadic.val_toRatio]
    exact Ratio.val_pos (BinaryFormat.significand_pos_of_nearest? h.pos hnearest)
      candidate.den_toRatio_pos
  obtain ⟨f, hf⟩ := exists_neighbours h.num_pos d.den_toRatio_pos hone
  obtain ⟨hback, hprecision⟩ := shortest_spec hpos hread (hf.precision_le hone).1 hone (by omega)
  refine ⟨(single?_of_read hback).trans hnearest, fun hd other hother => ?_⟩
  have hother' : 0 < other.precision := by
    have hval := Ratio.val_pos (Ratio.exists_double h.pos hother).1 other.den_toRatio_pos
    exact precision_pos (by rwa [val_toRatio] at hval)
  -- with fewer digits, the search would have ended before
  by_contra hlt
  exact hfirst other.precision hother' (by omega)
    (h.single?_nearest_of_precision_le hd hother' hother le_rfl)

/-- What the search overlooks has fewer digits than what is shown. -/
theorem exists_overlooked (hd : d ∈ overlooked) : ∃ (candidate : Dyadic) (printed other : Decimal),
    shorten d = some candidate ∧ shortest candidate = printed ∧ other.single? = some d ∧
      other.precision < printed.precision := by
  simp only [overlooked, List.mem_cons, List.not_mem_nil, or_false] at hd
  rcases hd with rfl | rfl | rfl
  · exact ⟨⟨4503599633244980, -148⟩, ⟨126217745, -37⟩, ⟨12621775, -36⟩, by decide +kernel⟩
  · exact ⟨⟨4503599629970267, 35⟩, ⟨154742505, 18⟩, ⟨15474251, 19⟩, by decide +kernel⟩
  · exact ⟨⟨4503599629970267, 38⟩, ⟨123794004, 19⟩, ⟨12379401, 20⟩, by decide +kernel⟩

/-! ## Patterns -/

section
variable {n : ℕ} {negative : Bool} (h : binary32.decode n = .finite negative d)

include h

/-- The number of a finite pattern by the fields of the pattern. -/
theorem eq_of_decode :
    n / 2 ^ 23 % 256 = 0 ∧ d = ⟨n % 2 ^ 23, -149⟩ ∨
    n / 2 ^ 23 % 256 ≠ 0 ∧ n / 2 ^ 23 % 256 < 255 ∧
      d = ⟨2 ^ 23 + n % 2 ^ 23, -149 + (n / 2 ^ 23 % 256 - 1 : ℕ)⟩ := by
  rw [decode_binary32] at h
  split at h
  · split at h <;> cases h
  · split at h
    · next hfield =>
      cases h
      exact .inl ⟨hfield, rfl⟩
    · next hspecial hfield =>
      cases h
      exact .inr ⟨hfield, by omega, rfl⟩

theorem eq_zero_of_decode (hs : d.significand = 0) : d = ⟨0, -149⟩ := by
  rcases eq_of_decode h with ⟨-, rfl⟩ | ⟨-, -, rfl⟩
  · exact congrArg (Dyadic.mk · (-149)) hs
  · exact absurd hs (by dsimp only; omega)

theorem isSingle_of_decode (hs : 0 < d.significand) : IsSingle d := by
  have hfr := BinaryFormat.fractions_binary32
  have hleast := BinaryFormat.leastExponent_binary32
  rcases eq_of_decode h with ⟨-, rfl⟩ | ⟨-, hfield, rfl⟩
  · refine ⟨⟨?_, ?_, .inl hleast.symm⟩, hs, ?_⟩ <;> dsimp only <;> omega
  · refine ⟨⟨?_, ?_, .inr ?_⟩, hs, ?_⟩ <;> dsimp only <;> omega

theorem mem_overlooked_iff : d ∈ overlooked ↔ n % 2 ^ 31 ∈ overlong := by
  simp only [overlooked, overlong, List.mem_cons, List.not_mem_nil, or_false]
  rcases eq_of_decode h with ⟨hfield, rfl⟩ | ⟨hfield, hfield', rfl⟩
  · simp only [Dyadic.mk.injEq]
    omega
  · simp only [Dyadic.mk.injEq]
    omega

end

/-! ## The text shown -/

theorem single?_of_val_eq_zero {decimal : Decimal} (h : decimal.val = 0) :
    decimal.single? = some ⟨0, -149⟩ := by
  have hnum : decimal.toRatio.num = 0 := by
    rw [← val_toRatio, Ratio.val, div_eq_zero_iff] at h
    have hden := decimal.den_toRatio_pos
    exact_mod_cast h.resolve_right (by positivity)
  rw [Decimal.single?, Ratio.single?, BinaryFormat.nearest?, if_pos hnum]
  rfl

theorem floatText_eq {p : UInt32} {negative : Bool} {printed : Decimal}
    (hp : binary32.decode p.toNat = .finite negative d) (hshorten : shorten d = some candidate)
    (hprinted : shortest candidate = printed) :
    floatText (.f32 p) none = some ((if negative then ['-'] else []) ++ printed.text .compact) := by
  rw [floatText, hp, binaryText, hshorten, Option.map_some, ← hprinted]
  rfl

/-- **Numbers of binary32 are read back from what is shown for them.** The decimal shown for a finite number
has its sign and is read as it. It has as few significant digits as any that is, unless the number is one of
the three. -/
theorem floatText_shortest_iff {p : UInt32} {negative : Bool} {text : List Char}
    (hp : binary32.decode p.toNat = .finite negative d)
    (htext : floatText (.f32 p) none = some text) :
    ∃ printed : Decimal, read? text = some (negative, printed) ∧ printed.single? = some d ∧
      ((∀ other : Decimal, other.single? = some d → printed.precision ≤ other.precision) ↔
        p.toNat % 2 ^ 31 ∉ overlong) := by
  rw [floatText, hp, binaryText, Option.map_eq_some_iff] at htext
  obtain ⟨candidate, hshorten, rfl⟩ := htext
  obtain ⟨printed, hread, hval⟩ := exists_read? negative (shortest candidate)
  refine ⟨printed, hread, ?_⟩
  rw [precision_congr hval, ← mem_overlooked_iff hp]
  rcases Nat.eq_zero_or_pos d.significand with hzero | hpos
  · obtain rfl : d = ⟨0, -149⟩ := eq_zero_of_decode hp hzero
    obtain rfl : (⟨0, -149⟩ : Dyadic) = candidate := Option.some.inj hshorten
    have hprinted : shortest ⟨0, -149⟩ = ⟨0, 0⟩ := rfl
    rw [hprinted] at hval ⊢
    refine ⟨single?_of_val_eq_zero (hval.trans (by norm_num [val])), iff_of_true ?_ (by decide)⟩
    exact fun other _ => Nat.zero_le _
  · have hsingle := isSingle_of_decode hp hpos
    obtain ⟨hback, hshortest⟩ := shortest_shorten hsingle hshorten
    refine ⟨?_, fun hmin hd => ?_, hshortest⟩
    · refine Ratio.single?_congr hpos (den_toRatio_pos _) (den_toRatio_pos _) hback ?_
      rwa [val_toRatio, val_toRatio]
    · obtain ⟨candidate', printed', other, hshorten', rfl, hother, hlt⟩ := exists_overlooked hd
      obtain rfl := Option.some.inj (hshorten.symm.trans hshorten')
      exact absurd (hmin other hother) (not_le.mpr hlt)

/-- A tenth is shown as a tenth. -/
theorem floatText_shortest_iff_tenth :
    binary32.decode (0x3dcccccd : UInt32).toNat = .finite false ⟨13421773, -27⟩ ∧
      floatText (.f32 0x3dcccccd) none = some ['0', '.', '1'] ∧
      ∃ printed : Decimal, read? ['0', '.', '1'] = some (false, printed) ∧
        printed.single? = some ⟨13421773, -27⟩ ∧
        ((∀ other : Decimal, other.single? = some ⟨13421773, -27⟩ → printed.precision ≤ other.precision) ↔
          (0x3dcccccd : UInt32).toNat % 2 ^ 31 ∉ overlong) := by
  have hp : binary32.decode (0x3dcccccd : UInt32).toNat = .finite false ⟨13421773, -27⟩ := by decide
  have hshorten : shorten ⟨13421773, -27⟩ = some ⟨7205759403792794, -56⟩ := by decide +kernel
  have hprinted : shortest ⟨7205759403792794, -56⟩ = ⟨1, -1⟩ := by decide +kernel
  have htext : floatText (.f32 0x3dcccccd) none = some ['0', '.', '1'] :=
    (floatText_eq hp hshorten hprinted).trans (by decide +kernel)
  exact ⟨hp, htext, floatText_shortest_iff hp htext⟩

/-- The decimal shown for `2 ^ 87` has nine digits, and one with eight is read as `2 ^ 87`. -/
theorem floatText_overlong :
    binary32.decode (0x6b000000 : UInt32).toNat = .finite false ⟨2 ^ 23, 64⟩ ∧
      floatText (.f32 0x6b000000) none = some "1.54742505e26".toList ∧
      read? "1.54742505e26".toList = some (false, ⟨154742505, 18⟩) ∧
      (⟨15474251, 19⟩ : Decimal).single? = some ⟨2 ^ 23, 64⟩ ∧
      (⟨15474251, 19⟩ : Decimal).precision < (⟨154742505, 18⟩ : Decimal).precision := by
  have hp : binary32.decode (0x6b000000 : UInt32).toNat = .finite false ⟨2 ^ 23, 64⟩ := by decide
  have hshorten : shorten ⟨2 ^ 23, 64⟩ = some ⟨4503599629970267, 35⟩ := by decide +kernel
  have hprinted : shortest ⟨4503599629970267, 35⟩ = ⟨154742505, 18⟩ := by decide +kernel
  refine ⟨hp, (floatText_eq hp hshorten hprinted).trans ?_, ?_⟩ <;> decide +kernel

end DeferredLog.Display
