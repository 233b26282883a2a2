import DeferredLog.Text.Numeral
import Mathlib.Data.List.Basic
import Mathlib.Tactic.Ring

/-!
# Numbers in the letters of an alphabet

The letters of an alphabet are digits, each of which is worth its place in the alphabet. `value?` reads a
row of them, the most significant first. Of all rows for a number one without superfluous zeros is
shortest (`Writes`), and this is what is written:

    f writes the digits in an alphabet → Writes alphabet n ((Nat.toDigits alphabet.length n).map f)
                                                                              (writes_map_toDigits)
-/

namespace DeferredLog.Text

/-! ## Reading -/

/-- The number that letters denote behind a number that has been read. -/
def valueFrom? (alphabet : List Char) (n : Nat) : List Char → Option Nat
  | [] => some n
  | c :: cs =>
    match alphabet.idxOf? c with
    | some v => valueFrom? alphabet (alphabet.length * n + v) cs
    | none => none

/-- The number that a row of letters denotes; no letters denote none. -/
def value? (alphabet cs : List Char) : Option Nat :=
  if cs.isEmpty then none else valueFrom? alphabet 0 cs

/-- A row of letters denotes a number, and no shorter one does. -/
structure Writes (alphabet : List Char) (n : Nat) (ds : List Char) : Prop where
  value : value? alphabet ds = some n
  shortest : ∀ other, value? alphabet other = some n → ds.length ≤ other.length

variable {alphabet cs ds : List Char} {n : Nat}

theorem value?_eq_valueFrom? (h : cs ≠ []) : value? alphabet cs = valueFrom? alphabet 0 cs := by
  unfold value?
  rw [if_neg]
  simpa using h

theorem ne_nil_of_value? (h : value? alphabet cs = some n) : cs ≠ [] := by
  rintro rfl
  cases h

theorem valueFrom?_of_value? (h : value? alphabet cs = some n) : valueFrom? alphabet 0 cs = some n := by
  rwa [← value?_eq_valueFrom? (ne_nil_of_value? h)]

theorem valueFrom?_append (start : Nat) :
    valueFrom? alphabet start (cs ++ ds) =
      (valueFrom? alphabet start cs).bind fun n => valueFrom? alphabet n ds := by
  induction cs generalizing start with
  | nil => rfl
  | cons c cs ih =>
    simp only [List.cons_append, valueFrom?]
    cases alphabet.idxOf? c with
    | none => rfl
    | some v => exact ih _

/-- As many letters cannot denote more. -/
theorem lt_of_valueFrom? (start : Nat) (h : valueFrom? alphabet start cs = some n) :
    n < alphabet.length ^ cs.length * (start + 1) := by
  induction cs generalizing start with
  | nil =>
    obtain rfl := Option.some.inj h
    simp
  | cons c cs ih =>
    simp only [valueFrom?] at h
    cases hc : alphabet.idxOf? c with
    | none =>
      rw [hc] at h
      cases h
    | some v =>
      rw [hc] at h
      have hv : v < alphabet.length := by
        have := List.findIdx?_eq_some_iff_findIdx_eq.mp hc
        omega
      calc n < alphabet.length ^ cs.length * (alphabet.length * start + v + 1) := ih _ h
        _ ≤ alphabet.length ^ cs.length * (alphabet.length * (start + 1)) := by
          apply Nat.mul_le_mul_left
          rw [Nat.mul_add]
          omega
        _ = alphabet.length ^ (c :: cs).length * (start + 1) := by
          rw [List.length_cons, pow_succ]
          ring

theorem lt_of_value? (h : value? alphabet cs = some n) : n < alphabet.length ^ cs.length := by
  have := lt_of_valueFrom? 0 (valueFrom?_of_value? h)
  omega

/-- Only letters of the alphabet are read. -/
theorem mem_of_valueFrom? (start : Nat) (h : valueFrom? alphabet start cs = some n) :
    ∀ c ∈ cs, c ∈ alphabet := by
  induction cs generalizing start with
  | nil => exact fun c hc => absurd hc List.not_mem_nil
  | cons d cs ih =>
    simp only [valueFrom?] at h
    cases hd : alphabet.idxOf? d with
    | none =>
      rw [hd] at h
      cases h
    | some v =>
      rw [hd] at h
      refine List.forall_mem_cons.mpr ⟨?_, ih _ h⟩
      by_contra hnot
      rw [List.idxOf?_eq_none_iff.mpr hnot] at hd
      cases hd

theorem mem_of_value? (h : value? alphabet cs = some n) {c : Char} (hc : c ∈ cs) : c ∈ alphabet :=
  mem_of_valueFrom? 0 (valueFrom?_of_value? h) c hc

/-- Zeros in front do not count. -/
theorem value?_replicate_append (hzero : alphabet.idxOf? '0' = some 0) (count : Nat)
    (h : value? alphabet ds = some n) : value? alphabet (List.replicate count '0' ++ ds) = some n := by
  have hne : List.replicate count '0' ++ ds ≠ [] := by simp [ne_nil_of_value? h]
  rw [value?_eq_valueFrom? hne]
  induction count with
  | zero => exact valueFrom?_of_value? h
  | succ count ih =>
    rw [List.replicate_succ, List.cons_append, valueFrom?, hzero]
    exact ih (by simp [ne_nil_of_value? h])

/-! ## Writing -/

section
variable {f : Char → Char} (hbase : 1 < alphabet.length)
  (hf : ∀ d < alphabet.length, alphabet.idxOf? (f d.digitChar) = some d)

include hbase hf

/-- What is written for a number denotes that number. -/
theorem value?_map_toDigits (n : Nat) :
    value? alphabet ((Nat.toDigits alphabet.length n).map f) = some n := by
  rw [value?_eq_valueFrom? (by simp [Nat.toDigits_ne_nil])]
  induction n using Nat.strongRecOn with
  | ind n ih =>
    rw [Nat.toDigits_eq_if hbase]
    by_cases hn : n < alphabet.length
    · rw [if_pos hn]
      simp [valueFrom?, hf n hn]
    · have hdiv : n / alphabet.length < n := Nat.div_lt_self (by omega) hbase
      have hmod : n % alphabet.length < alphabet.length := Nat.mod_lt _ (by omega)
      rw [if_neg hn, List.map_append, valueFrom?_append, ih _ hdiv, Option.bind_some]
      simp only [List.map_cons, List.map_nil, valueFrom?, hf _ hmod]
      rw [Nat.div_add_mod]

/-- Numbers are written as short as possible. -/
theorem writes_map_toDigits (n : Nat) : Writes alphabet n ((Nat.toDigits alphabet.length n).map f) where
  value := value?_map_toDigits hbase hf n
  shortest other hother := by
    have hpos : 0 < other.length := List.length_pos_of_ne_nil (ne_nil_of_value? hother)
    rw [List.length_map, Nat.length_toDigits_le_iff hbase hpos]
    exact lt_of_value? hother

end

theorem writes_toDigits_length (hbase : 1 < alphabet.length)
    (hletters : ∀ d < alphabet.length, alphabet.idxOf? d.digitChar = some d) (n : Nat) :
    Writes alphabet n (Nat.toDigits alphabet.length n) := by
  have h := writes_map_toDigits (f := id) hbase hletters n
  rwa [List.map_id] at h

/-! ## Decimal numbers -/

/-- The decimal digits. -/
def decimalAlphabet : List Char := ['0', '1', '2', '3', '4', '5', '6', '7', '8', '9']

theorem writes_toDigits (n : Nat) : Writes decimalAlphabet n (Nat.toDigits 10 n) :=
  writes_toDigits_length (by decide) (by decide) n

end DeferredLog.Text
