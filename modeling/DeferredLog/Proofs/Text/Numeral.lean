import DeferredLog.FormatString.Tag
import Mathlib.Data.List.Basic

/-!
# Written numbers are read back

A number is written with ASCII digits and without superfluous zeros, and read with the decimal digits
of any script. Reading takes the longest run of digits, so what is written is read back in front of
anything that does not go on with a digit.

    digitsValue (Nat.toDigits 10 n) = n                                        (digitsValue_toDigits)
    rest does not start with a digit →
      takeNumeral? (Nat.toDigits 10 n ++ rest) = some (Nat.toDigits 10 n, rest)
                                                                       (takeNumeral?_toDigits_append)
-/

namespace DeferredLog.Text

/-! ## Digits -/

theorem digitValue?_of_isDigit {c : Char} (h : c.isDigit = true) :
    digitValue? c = some (c.toNat - '0'.toNat) := by
  have hrange : 0x30 ≤ c.toNat ∧ c.toNat < 0x30 + 10 := by
    rw [Char.isDigit, Bool.and_eq_true, decide_eq_true_eq, decide_eq_true_eq] at h
    have hlow : '0'.val.toNat ≤ c.val.toNat := UInt32.le_iff_toNat_le.mp h.1
    have hhigh : c.val.toNat ≤ '9'.val.toNat := UInt32.le_iff_toNat_le.mp h.2
    exact ⟨hlow, Nat.lt_succ_of_le hhigh⟩
  rw [digitValue?, decimalZeros, List.findSome?_cons, if_pos hrange]
  rfl

theorem isDigit_of_mem_toDigits {n : Nat} {c : Char} (h : c ∈ Nat.toDigits 10 n) :
    isDigit c = true := by
  have hdigit : c.isDigit = true := Nat.isDigit_of_mem_toDigits (by decide) (by decide) h
  rw [isDigit, digitValue?_of_isDigit hdigit]
  rfl

/-- ASCII digits are read alike by both readers. -/
theorem digitsValue_eq_ofDigitChars {ds : List Char} (h : ∀ c ∈ ds, c.isDigit = true) :
    digitsValue ds = Nat.ofDigitChars 10 ds 0 := by
  rw [digitsValue, Nat.ofDigitChars]
  refine List.foldl_ext _ _ 0 ?_
  intro n c hc
  rw [digitValue?_of_isDigit (h c hc)]

/-- What is written for a number denotes that number. -/
theorem digitsValue_toDigits (n : Nat) : digitsValue (Nat.toDigits 10 n) = n := by
  rw [digitsValue_eq_ofDigitChars, Nat.ofDigitChars_ten_toDigits]
  intro c hc
  exact Nat.isDigit_of_mem_toDigits (by decide) (by decide) hc

/-! ## Numerals in front of something else -/

/-- Nothing is dropped from a text that does not start with a character of the class. -/
theorem dropWhile_eq_self {p : Char → Bool} {cs : List Char} (h : ∀ c, cs.head? = some c → p c = false) :
    cs.dropWhile p = cs := by
  cases cs with
  | nil => rfl
  | cons c cs => rw [List.dropWhile_cons, if_neg (by simp [h c rfl])]

section
variable {ds rest : List Char} (hds : ∀ c ∈ ds, isDigit c = true)
  (hrest : ∀ c, rest.head? = some c → isDigit c = false)

include hds hrest

theorem takeWhile_isDigit_append : (ds ++ rest).takeWhile isDigit = ds := by
  have hstop : rest.takeWhile isDigit = [] := by
    cases rest with
    | nil => rfl
    | cons c rest => rw [List.takeWhile_cons, if_neg (by simp [hrest c rfl])]
  rw [List.takeWhile_append_of_pos hds, hstop, List.append_nil]

theorem dropWhile_isDigit_append : (ds ++ rest).dropWhile isDigit = rest := by
  rw [List.dropWhile_append_of_pos hds, dropWhile_eq_self hrest]

/-- A run of digits is taken whole if no digit follows. -/
theorem takeNumeral?_append (hne : ds ≠ []) : takeNumeral? (ds ++ rest) = some (ds, rest) := by
  have htake := takeWhile_isDigit_append hds hrest
  have hdrop := dropWhile_isDigit_append hds hrest
  obtain ⟨d, ds, rfl⟩ := List.exists_cons_of_ne_nil hne
  rw [takeNumeral?, htake, hdrop]

end

theorem isNumeral_iff {ds : List Char} :
    isNumeral ds = true ↔ ds ≠ [] ∧ ∀ c ∈ ds, isDigit c = true := by
  rw [isNumeral, Bool.and_eq_true, List.all_eq_true]
  simp

theorem isNumeral_toDigits (n : Nat) : isNumeral (Nat.toDigits 10 n) = true :=
  isNumeral_iff.mpr ⟨Nat.toDigits_ne_nil, fun _ => isDigit_of_mem_toDigits⟩

/-- What is taken is a numeral with no digit behind it. -/
theorem takeNumeral?_eq_some_iff {cs ds rest : List Char} :
    takeNumeral? cs = some (ds, rest) ↔
      cs = ds ++ rest ∧ isNumeral ds = true ∧ ∀ c, rest.head? = some c → isDigit c = false := by
  constructor
  · intro h
    unfold takeNumeral? at h
    split at h
    · cases h
    · next hne =>
      obtain ⟨rfl, rfl⟩ := Prod.mk.inj (Option.some.inj h)
      refine ⟨List.takeWhile_append_dropWhile.symm, ?_, fun c hc => ?_⟩
      · exact isNumeral_iff.mpr ⟨hne, fun c hc => List.all_eq_true.mp List.all_takeWhile c hc⟩
      · have hstop := List.head?_dropWhile_not isDigit cs
        rwa [hc] at hstop
  · rintro ⟨rfl, hds, hrest⟩
    obtain ⟨hne, hdigits⟩ := isNumeral_iff.mp hds
    exact takeNumeral?_append hdigits hrest hne

theorem numeralBefore?_eq_some_iff {cs ds tail : List Char}
    (htail : ∀ c, tail.head? = some c → isDigit c = false) :
    numeralBefore? tail cs = some ds ↔ cs = ds ++ tail ∧ isNumeral ds = true := by
  unfold numeralBefore?
  constructor
  · intro h
    split at h
    · next ds' rest hsplit =>
      split at h
      · next hrest =>
        obtain rfl := Option.some.inj h
        obtain ⟨rfl, hds, -⟩ := takeNumeral?_eq_some_iff.mp hsplit
        exact ⟨by rw [hrest], hds⟩
      · cases h
    · cases h
  · rintro ⟨rfl, hds⟩
    rw [takeNumeral?_eq_some_iff.mpr ⟨rfl, hds, htail⟩]
    exact if_pos rfl

/-- A text that starts with no numeral starts with no digit. -/
theorem not_isDigit_head {cs : List Char} (h : takeNumeral? cs = none) :
    ∀ c, cs.head? = some c → isDigit c = false := by
  intro c hc
  by_contra hdigit
  rw [Bool.not_eq_false] at hdigit
  obtain ⟨rest, rfl⟩ := List.head?_eq_some_iff.mp hc
  rw [takeNumeral?, List.takeWhile_cons_of_pos hdigit] at h
  cases h

theorem takeNumeral?_eq_none {cs : List Char} (h : ∀ c, cs.head? = some c → isDigit c = false) :
    takeNumeral? cs = none := by
  cases cs with
  | nil => rfl
  | cons c cs => rw [takeNumeral?, List.takeWhile_cons_of_neg (by simp [h c rfl])]

theorem takeNumeral?_toDigits_append (n : Nat) {rest : List Char}
    (hrest : ∀ c, rest.head? = some c → isDigit c = false) :
    takeNumeral? (Nat.toDigits 10 n ++ rest) = some (Nat.toDigits 10 n, rest) :=
  takeNumeral?_append (fun _ => isDigit_of_mem_toDigits) hrest Nat.toDigits_ne_nil

end DeferredLog.Text
