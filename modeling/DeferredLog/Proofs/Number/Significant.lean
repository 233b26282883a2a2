import DeferredLog.Proofs.Display.Integer
import DeferredLog.Proofs.Number.Rounding

/-!
# Significant digits and the text of decimals

The significant digits of a decimal are counted without the zeros at its end (`Decimal.precision`), which
is the least number of digits that a decimal of its value is written with. `Decimal.read?` reads the text
of a decimal, with or without point and exponent. What is written for a decimal is read as a decimal of
the same value:

    read? ((if negative then ['-'] else []) ++ d.text .compact) = some (negative, printed) with
    printed.val = d.val                                                                 (exists_read?)
-/

namespace DeferredLog.Decimal

open Text

/-- The number of significant digits; zeros at the end do not count. -/
def precision (d : Decimal) : ℕ :=
  ((Nat.toDigits 10 d.digits).reverse.dropWhile (· = '0')).length

/-! ## Reading -/

/-- The exponent that a text without its mark denotes. -/
def readExponent? : List Char → Option ℤ
  | '-' :: ds => (value? decimalAlphabet ds).map fun n : ℕ => -(n : ℤ)
  | ds => (value? decimalAlphabet ds).map fun n : ℕ => (n : ℤ)

/-- The decimal that a text without a sign denotes: digits, perhaps with a point among them, and perhaps
an exponent behind them. -/
def readMagnitude? (text : List Char) : Option Decimal :=
  let mantissa := text.takeWhile (· ≠ 'e')
  let whole := mantissa.takeWhile (· ≠ '.')
  let fraction := (mantissa.dropWhile (· ≠ '.')).tail
  let exponent :=
    match text.dropWhile (· ≠ 'e') with
    | [] => some 0
    | _ :: ds => readExponent? ds
  match value? decimalAlphabet (whole ++ fraction), exponent with
  | some digits, some exponent => some ⟨digits, exponent - fraction.length⟩
  | _, _ => none

/-- The sign and the decimal that a text denotes. -/
def read? : List Char → Option (Bool × Decimal)
  | '-' :: text => (readMagnitude? text).map fun d => (true, d)
  | text => (readMagnitude? text).map fun d => (false, d)

variable {d e : Decimal} {n count : ℕ} {exponent : ℤ} {whole fraction ds text : List Char}

/-! ## Significant digits -/

/-- Without the zeros at its end a number is written like the number without its factors of ten. -/
theorem exists_kept (hn : 0 < n) :
    ∃ m t, n = m * 10 ^ t ∧ m % 10 ≠ 0 ∧ (Nat.toDigits 10 n).length = (Nat.toDigits 10 m).length + t ∧
      (Nat.toDigits 10 n).reverse.dropWhile (· = '0') = (Nat.toDigits 10 m).reverse := by
  induction n using Nat.strongRecOn with
  | ind n ih =>
    by_cases hmod : n % 10 = 0
    · obtain ⟨m, t, hm, hlast, hlength, hkept⟩ := ih (n / 10) (by omega) (by omega)
      have hdigits : Nat.toDigits 10 n = Nat.toDigits 10 (n / 10) ++ ['0'] := by
        rw [Nat.toDigits_eq_if (by decide), if_neg (by omega), hmod]
        rfl
      refine ⟨m, t + 1, ?_, hlast, ?_, ?_⟩
      · rw [pow_succ, ← mul_assoc, ← hm]
        omega
      · rw [hdigits, List.length_append, hlength, List.length_singleton, add_assoc]
      · rw [hdigits, List.reverse_append]
        exact hkept
    · have hchar : ∀ k < 10, k ≠ 0 → ¬ (k.digitChar = '0') := by decide
      refine ⟨n, 0, by rw [pow_zero, mul_one], hmod, rfl, ?_⟩
      rw [Nat.toDigits_eq_if (by decide)]
      split
      · next hlt => simp [hchar n hlt (by omega)]
      · simp [hchar (n % 10) (by omega) hmod]

/-- A decimal has few significant digits if one of its value is written with few digits. -/
theorem precision_le_iff : d.precision ≤ count ↔ ∃ e : Decimal, e.val = d.val ∧ e.digits < 10 ^ count := by
  rcases Nat.eq_zero_or_pos d.digits with hzero | hpos
  · refine iff_of_true ?_ ⟨d, rfl, ?_⟩
    · rw [precision, hzero]
      exact Nat.zero_le count
    · rw [hzero]
      positivity
  obtain ⟨m, t, hm, hlast, -, hkept⟩ := exists_kept hpos
  have hval : d.val = m * (10 : ℚ) ^ (d.exponent + t) := by
    rw [val, hm, zpow_add₀ (by norm_num), zpow_natCast, Nat.cast_mul, Nat.cast_pow, Nat.cast_ofNat]
    ring
  have hlength : d.precision ≤ count ↔ m < 10 ^ count := by
    rw [precision, hkept, List.length_reverse]
    rcases Nat.eq_zero_or_pos count with rfl | hcount
    · have := Nat.length_toDigits_pos (b := 10) (n := m)
      rw [pow_zero]
      omega
    · exact Nat.length_toDigits_le_iff (by decide) hcount
  rw [hlength]
  constructor
  · exact fun h => ⟨⟨m, d.exponent + t⟩, hval.symm, h⟩
  · rintro ⟨e, heq, he⟩
    rw [hval, val] at heq
    rcases le_or_gt e.exponent (d.exponent + t) with hle | hlt
    · obtain ⟨k, hk⟩ := Int.le.dest hle
      rw [← hk, zpow_add₀ (by norm_num), zpow_natCast, mul_comm ((10 : ℚ) ^ e.exponent), ← mul_assoc,
        mul_left_inj' (by positivity)] at heq
      have hdigits : e.digits = m * 10 ^ k := by exact_mod_cast heq
      have hle' := Nat.le_mul_of_pos_right m (show 0 < 10 ^ k by positivity)
      omega
    · -- a coarser grid does not hold what has no factor of ten
      obtain ⟨k, hk⟩ := Int.le.dest (Int.add_one_le_of_lt hlt)
      rw [← hk, add_assoc, add_comm 1 (k : ℤ), ← Nat.cast_succ, zpow_add₀ (by norm_num) (d.exponent + t),
        zpow_natCast, mul_comm ((10 : ℚ) ^ (d.exponent + t)), ← mul_assoc,
        mul_left_inj' (by positivity)] at heq
      have hdigits : e.digits * 10 ^ (k + 1) = m := by exact_mod_cast heq
      rw [pow_succ, ← mul_assoc] at hdigits
      omega

theorem precision_congr (h : d.val = e.val) : d.precision = e.precision :=
  eq_of_forall_ge_iff fun count => by rw [precision_le_iff, precision_le_iff, h]

theorem precision_pos (h : 0 < d.val) : 0 < d.precision := by
  refine Nat.pos_of_ne_zero fun hzero => ?_
  obtain ⟨e, heq, he⟩ := precision_le_iff.mp hzero.le
  rw [pow_zero, Nat.lt_one_iff] at he
  rw [← heq, val, he, Nat.cast_zero, zero_mul] at h
  exact lt_irrefl _ h

/-- Ten to the number of digits needs one digit only. -/
theorem precision_le_of_le (hcount : 1 ≤ count) (h : d.digits ≤ 10 ^ count) : d.precision ≤ count := by
  rw [precision_le_iff]
  rcases h.lt_or_eq with hlt | heq
  · exact ⟨d, rfl, hlt⟩
  · refine ⟨⟨1, d.exponent + count⟩, ?_, Nat.one_lt_pow (by omega) (by decide)⟩
    rw [val, val, heq, zpow_add₀ (by norm_num), zpow_natCast, Nat.cast_one, one_mul, Nat.cast_pow,
      Nat.cast_ofNat, mul_comm]

/-- The significant digits and the exponent of the first of them make up the value. -/
theorem exists_significant (d : Decimal) :
    ∃ m, value? decimalAlphabet d.significant.1 = some m ∧
      d.val = m * (10 : ℚ) ^ (d.significant.2 + 1 - d.significant.1.length) := by
  rcases Nat.eq_zero_or_pos d.digits with hzero | hpos
  · refine ⟨0, ?_, ?_⟩
    · rw [significant, hzero]
      rfl
    · rw [val, hzero, Nat.cast_zero, zero_mul, zero_mul]
  · obtain ⟨m, t, hm, -, hlength, hkept⟩ := exists_kept hpos
    have hsignificant : d.significant =
        (Nat.toDigits 10 m, d.exponent + ((Nat.toDigits 10 d.digits).length - 1 : ℕ)) := by
      rw [significant, if_neg hpos.ne', Text.digits, hkept, List.reverse_reverse, if_neg]
      simp [Nat.toDigits_ne_nil]
    have hpos' := Nat.length_toDigits_pos (b := 10) (n := m)
    refine ⟨m, ?_, ?_⟩
    · rw [hsignificant]
      exact (writes_toDigits m).value
    · rw [hsignificant, val, hm, Nat.cast_mul, Nat.cast_pow, Nat.cast_ofNat, mul_assoc, ← zpow_natCast,
        ← zpow_add₀ (by norm_num), ← hm, hlength]
      congr 2
      dsimp only
      omega

/-! ## What is written is read -/

theorem ne_of_value? {c mark : Char} (h : value? decimalAlphabet ds = some n)
    (hmark : mark ∉ decimalAlphabet) (hc : c ∈ ds) : c ≠ mark :=
  fun heq => hmark (heq ▸ mem_of_value? h hc)

/-- Zeros behind a number are factors of ten. -/
theorem value?_append_replicate (h : value? decimalAlphabet ds = some n) (count : ℕ) :
    value? decimalAlphabet (ds ++ List.replicate count '0') = some (n * 10 ^ count) := by
  induction count with
  | zero => rwa [List.replicate_zero, List.append_nil, pow_zero, mul_one]
  | succ count ih =>
    have hne : ds ++ List.replicate count '0' ≠ [] := ne_nil_of_value? ih
    rw [value?_eq_valueFrom? hne] at ih
    rw [List.replicate_succ', ← List.append_assoc, value?_eq_valueFrom? (by simp), valueFrom?_append, ih,
      Option.bind_some]
    show some (10 * (n * 10 ^ count) + 0) = _
    rw [pow_succ]
    congr 1
    ring

theorem readExponent?_toString (exponent : ℤ) :
    readExponent? (toString exponent).toList = some exponent := by
  obtain ⟨ds, hwrites, htext⟩ := Display.isDecimal_toString exponent
  rw [htext, Display.sign]
  split
  · next hneg =>
    rw [List.singleton_append, readExponent?, hwrites.value, Option.map_some]
    congr 1
    omega
  · next hneg =>
    rw [List.nil_append, readExponent?, hwrites.value, Option.map_some]
    · congr 1
      omega
    · rintro ds' rfl
      exact ne_of_value? hwrites.value (by decide) List.mem_cons_self rfl

/-- A text is read by its parts. -/
theorem readMagnitude?_append {mantissa tail : List Char} (h : value? decimalAlphabet (whole ++ fraction) = some n)
    (hmantissa : mantissa = whole ∧ fraction = [] ∨ mantissa = whole ++ '.' :: fraction)
    (htail : tail = [] ∧ exponent = 0 ∨ ∃ ds, tail = 'e' :: ds ∧ readExponent? ds = some exponent) :
    readMagnitude? (mantissa ++ tail) = some ⟨n, exponent - fraction.length⟩ := by
  have hletter {c mark : Char} (hmark : mark ∉ decimalAlphabet) (hc : c ∈ whole ∨ c ∈ fraction) :
      decide (c ≠ mark) = true :=
    decide_eq_true (ne_of_value? h hmark (List.mem_append.mpr hc))
  have hmark : ∀ c ∈ mantissa, decide (c ≠ 'e') = true := by
    intro c hc
    rcases hmantissa with ⟨rfl, -⟩ | rfl
    · exact hletter (by decide) (.inl hc)
    · rcases List.mem_append.mp hc with hc | hc
      · exact hletter (by decide) (.inl hc)
      · rcases List.mem_cons.mp hc with rfl | hc
        · rfl
        · exact hletter (by decide) (.inr hc)
  have htake : (mantissa ++ tail).takeWhile (· ≠ 'e') = mantissa ∧
      (mantissa ++ tail).dropWhile (· ≠ 'e') = tail := by
    rw [List.takeWhile_append_of_pos hmark, List.dropWhile_append_of_pos hmark]
    rcases htail with ⟨rfl, -⟩ | ⟨ds, rfl, -⟩ <;> simp
  have hpoint : mantissa.takeWhile (· ≠ '.') = whole ∧
      (mantissa.dropWhile (· ≠ '.')).tail = fraction := by
    have hwhole : ∀ c ∈ whole, decide (c ≠ '.') = true := fun c hc => hletter (by decide) (.inl hc)
    rcases hmantissa with ⟨rfl, rfl⟩ | rfl
    · rw [List.takeWhile_eq_self_iff.mpr hwhole, List.dropWhile_eq_nil_iff.mpr hwhole]
      exact ⟨rfl, rfl⟩
    · rw [List.takeWhile_append_of_pos hwhole, List.dropWhile_append_of_pos hwhole]
      simp
  rw [readMagnitude?, htake.1, htake.2, hpoint.1, hpoint.2, h]
  rcases htail with ⟨rfl, rfl⟩ | ⟨ds, rfl, hexponent⟩
  · rfl
  · dsimp only
    rw [hexponent]

section
variable (h : value? decimalAlphabet ds = some n)

include h

/-- Without an exponent the point stands behind the ones. -/
theorem readMagnitude?_positional (exponent : ℤ) :
    ∃ printed : Decimal, readMagnitude? (positional ds exponent) = some printed ∧
      printed.val = n * (10 : ℚ) ^ (exponent + 1 - ds.length) := by
  rw [← List.append_nil (positional ds exponent), positional]
  split
  · next hneg =>
    have hvalue : value? decimalAlphabet
        (['0'] ++ (List.replicate ((-exponent).toNat - 1) '0' ++ ds)) = some n :=
      value?_replicate_append rfl ((-exponent).toNat - 1 + 1) h
    refine ⟨_, readMagnitude?_append hvalue (.inr rfl) (.inl ⟨rfl, rfl⟩), ?_⟩
    rw [val, List.length_append, List.length_replicate]
    congr 2
    dsimp only
    omega
  · next hnonneg =>
    dsimp only
    split
    · next hshort =>
      have hvalue := value?_append_replicate (value?_append_replicate h (exponent.toNat + 1 - ds.length)) 1
      refine ⟨_, readMagnitude?_append hvalue (.inr rfl) (.inl ⟨rfl, rfl⟩), ?_⟩
      rw [val]
      push_cast
      rw [List.length_singleton, mul_assoc, mul_assoc, ← zpow_natCast, ← zpow_one_add₀ (by norm_num),
        ← zpow_add₀ (by norm_num)]
      congr 2
      omega
    · next hlong =>
      have hvalue : value? decimalAlphabet
          (ds.take (exponent.toNat + 1) ++ ds.drop (exponent.toNat + 1)) = some n := by
        rwa [List.take_append_drop]
      refine ⟨_, readMagnitude?_append hvalue (.inr rfl) (.inl ⟨rfl, rfl⟩), ?_⟩
      rw [val, List.length_drop]
      congr 2
      dsimp only
      omega

/-- With an exponent the point stands behind the first digit. -/
theorem readMagnitude?_scientific (exponent : ℤ) :
    ∃ printed : Decimal, readMagnitude? (scientific .compact 'e' ds exponent) = some printed ∧
      printed.val = n * (10 : ℚ) ^ (exponent + 1 - ds.length) := by
  have htail := readExponent?_toString exponent
  rw [scientific]
  match ds, h with
  | [d], h =>
    have hvalue : value? decimalAlphabet ([d] ++ []) = some n := h
    refine ⟨_, readMagnitude?_append hvalue (.inl ⟨rfl, rfl⟩) (.inr ⟨_, rfl, htail⟩), ?_⟩
    rw [val]
    congr 2
    simp
  | d :: e :: ds, h =>
    have hvalue : value? decimalAlphabet ([d] ++ e :: ds) = some n := h
    refine ⟨_, readMagnitude?_append hvalue (.inr rfl) (.inr ⟨_, rfl, htail⟩), ?_⟩
    rw [val]
    congr 2
    simp only [List.length_cons]
    omega

end

theorem readMagnitude?_text (d : Decimal) :
    ∃ printed : Decimal, readMagnitude? (d.text .compact) = some printed ∧ printed.val = d.val := by
  obtain ⟨m, hdigits, hval⟩ := exists_significant d
  rw [text, hval]
  dsimp only
  split
  · exact readMagnitude?_positional hdigits _
  · exact readMagnitude?_scientific hdigits _

/-- What is written for a decimal with a sign is read as a decimal of the same value with that sign. -/
theorem exists_read? (negative : Bool) (d : Decimal) :
    ∃ printed : Decimal, read? ((if negative then ['-'] else []) ++ d.text .compact) =
      some (negative, printed) ∧ printed.val = d.val := by
  obtain ⟨printed, hread, hval⟩ := readMagnitude?_text d
  refine ⟨printed, ?_, hval⟩
  cases negative with
  | true =>
    rw [if_pos rfl, List.singleton_append, read?, hread]
    rfl
  | false =>
    rw [if_neg (by decide), List.nil_append, read?, hread]
    · rfl
    · -- a sign is no letter of a number
      rintro text heq
      rw [heq] at hread
      cases hread

end DeferredLog.Decimal
