import DeferredLog.Display.Integer
import DeferredLog.Proofs.Text.Digits
import Mathlib.Data.Int.ModEq
import Mathlib.Data.List.TakeWhile
import Mathlib.Tactic.Positivity

/-!
# Integers are shown faithfully

What is shown for an integer is one of three forms: the number in decimal (`IsDecimal`), the number of
microseconds in seconds (`IsSeconds`), or the number modulo `2 ^ bits` in the letters of a base, with mark
and padding (`IsPattern`). Each form can be read back. Modulo `2 ^ bits` the integers of a type are all
different, so no two of them are shown alike:

    integerText shows each integer in the form that the hint asks for, and
    integerText bits n hint = integerText bits k hint → n = k                  (integerText_faithful)
-/

namespace DeferredLog

open Text

/-- The letters of a kind of display, in the order of what they are worth. -/
def HintKind.alphabet : HintKind → List Char
  | .lowerHex => "0123456789abcdef".toList
  | .upperHex => "0123456789ABCDEF".toList
  | .binary => "01".toList
  | .octal => "01234567".toList
  | _ => decimalAlphabet

/-- The mark that a hint asks for. -/
def Hint.mark (h : Hint) : List Char := if h.alternate then h.kind.radixMark.toList else []

namespace Display

/-! ## Forms -/

/-- The integers of a type with the given number of bits. -/
def InRange (signed : Bool) (bits : Nat) (n : Int) : Prop :=
  if signed then -2 ^ bits ≤ 2 * n ∧ 2 * n < 2 ^ bits else 0 ≤ n ∧ n < 2 ^ bits

/-- The sign in front of a number. -/
def sign (n : Int) : List Char := if n < 0 then ['-'] else []

/-- A number in decimal, with no superfluous zero. -/
def IsDecimal (n : Int) (text : List Char) : Prop :=
  ∃ ds, Writes decimalAlphabet n.natAbs ds ∧ text = sign n ++ ds

/-- A number of microseconds in seconds, with a point and six more digits. -/
def IsSeconds (n : Int) (text : List Char) : Prop :=
  ∃ seconds micros whole fraction,
    Writes decimalAlphabet seconds whole ∧
    value? decimalAlphabet fraction = some micros ∧ fraction.length = 6 ∧
    n.natAbs = seconds * 1000000 + micros ∧
    text = sign n ++ whole ++ '.' :: fraction

/-- A natural number in the letters of a hint, with no superfluous zero but for the padding. The mark
stands behind spaces and in front of zeros. -/
def IsPattern (h : Hint) (m : Nat) (text : List Char) : Prop :=
  ∃ spaces zeros ds,
    Writes h.kind.alphabet m ds ∧
    (if h.zeroPad then spaces = 0 else zeros = 0) ∧
    text = List.replicate spaces ' ' ++ (h.mark ++ (List.replicate zeros '0' ++ ds)) ∧
    text.length = max h.width (h.mark.length + ds.length)

/-- The form that a hint asks for. -/
def Shows (bits : Nat) (n : Int) (hint : Option Hint) (text : List Char) : Prop :=
  match hint with
  | none => IsDecimal n text
  | some h =>
    match h.kind.radix? with
    | some base =>
      h.kind.alphabet.length = base ∧ ∃ m : Nat, (m : Int) = n % 2 ^ bits ∧ IsPattern h m text
    | none => if h.kind = .micros then IsSeconds n text else IsDecimal n text

variable {signed : Bool} {bits base m : Nat} {n k : Int} {h : Hint} {text : List Char}

/-! ## What is shown has its form -/

theorem isDecimal_toString (n : Int) : IsDecimal n (toString n).toList := by
  refine ⟨Nat.toDigits 10 n.natAbs, writes_toDigits _, ?_⟩
  cases n with
  | ofNat n =>
    rw [sign, if_neg (by simp)]
    exact (congrArg String.toList Nat.toString_eq_ofList_toDigits).trans String.toList_ofList
  | negSucc n =>
    rw [sign, if_pos (Int.negSucc_lt_zero n)]
    show ("-" ++ toString (n + 1)).toList = '-' :: Nat.toDigits 10 (n + 1)
    rw [String.toList_append, Nat.toString_eq_ofList_toDigits]
    exact congrArg ('-' :: ·) String.toList_ofList

theorem isSeconds_microsText (n : Int) : IsSeconds n (microsText n) := by
  have hmicros : n.natAbs % 1000000 < 10 ^ 6 := Nat.mod_lt _ (by decide)
  have hlength : (Nat.toDigits 10 (n.natAbs % 1000000)).length ≤ 6 :=
    (Nat.length_toDigits_le_iff (by decide) (by decide)).mpr hmicros
  refine ⟨n.natAbs / 1000000, n.natAbs % 1000000, _, _, writes_toDigits _, ?_, ?_, ?_, rfl⟩
  · exact value?_replicate_append rfl _ (writes_toDigits _).value
  · rw [padded, List.length_leftpad, digits]
    omega
  · omega

/-- The digits of a number in the base of a kind are its letters. -/
theorem writes_radixDigits {kind : HintKind} (hbase : kind.radix? = some base) (m : Nat) :
    kind.alphabet.length = base ∧ Writes kind.alphabet m (radixDigits kind base m) := by
  cases kind <;> cases hbase
  case lowerHex => exact ⟨rfl, writes_toDigits_length (by decide) (by decide) m⟩
  case upperHex => exact ⟨rfl, writes_map_toDigits (by decide) (by decide) m⟩
  case binary => exact ⟨rfl, writes_toDigits_length (by decide) (by decide) m⟩
  case octal => exact ⟨rfl, writes_toDigits_length (by decide) (by decide) m⟩

theorem radixText_eq (h : Hint) (base m : Nat) :
    radixText h base m =
      if h.zeroPad then h.mark ++ (radixDigits h.kind base m).leftpad (h.width - h.mark.length) '0'
      else (h.mark ++ radixDigits h.kind base m).leftpad h.width ' ' :=
  rfl

theorem isPattern_radixText (hbase : h.kind.radix? = some base) (m : Nat) :
    IsPattern h m (radixText h base m) := by
  have hwrites := (writes_radixDigits hbase m).2
  rw [radixText_eq]
  by_cases hzero : h.zeroPad = true
  · rw [if_pos hzero]
    refine ⟨0, _, _, hwrites, ?_, rfl, ?_⟩
    · rw [if_pos hzero]
    · rw [List.length_append, List.length_leftpad]
      omega
  · rw [if_neg hzero]
    refine ⟨_, 0, _, hwrites, ?_, rfl, ?_⟩
    · rw [if_neg hzero]
    · rw [List.length_leftpad, List.length_append]

/-- In range, the pattern of a number is the number modulo `2 ^ bits`. -/
theorem pattern_eq (hn : InRange signed bits n) : (pattern bits n : Int) = n % 2 ^ bits := by
  have hpos : (0 : Int) < 2 ^ bits := by positivity
  have hpow : ((Nat.pow 2 bits : Nat) : Int) = 2 ^ bits := Nat.cast_pow 2 bits
  unfold pattern
  by_cases hneg : n < 0
  · rw [if_pos hneg, hpow, Int.toNat_of_nonneg (Int.emod_nonneg _ (by omega))]
  · have hlt : n < 2 ^ bits := by
      unfold InRange at hn
      split at hn <;> omega
    rw [if_neg hneg, Int.toNat_of_nonneg (by omega), Int.emod_eq_of_lt (by omega) hlt]

/-- Every hint gets the form that it asks for. -/
theorem shows_integerText (hn : InRange signed bits n) (hint : Option Hint) :
    Shows bits n hint (integerText bits n hint) := by
  cases hint with
  | none => exact isDecimal_toString n
  | some h =>
    cases hbase : h.kind.radix? with
    | some base =>
      simp only [Shows, integerText, hbase]
      exact ⟨(writes_radixDigits hbase 0).1, pattern bits n, pattern_eq hn, isPattern_radixText hbase _⟩
    | none =>
      by_cases hmicros : h.kind = .micros
      · simp only [Shows, integerText, hbase, if_pos hmicros]
        exact isSeconds_microsText n
      · simp only [Shows, integerText, hbase, if_neg hmicros]
        exact isDecimal_toString n

/-! ## Reading back -/

/-- A number in front of whose letters there is a sign is known by both. -/
theorem eq_of_sign_eq (hsign : sign n = sign k) (habs : n.natAbs = k.natAbs) : n = k := by
  unfold sign at hsign
  split at hsign <;> split at hsign
  · omega
  · cases hsign
  · cases hsign
  · omega

/-- A sign is told from the letters behind it. -/
theorem sign_append_inj {ds es cs bs : List Char} {i j : Nat}
    (hds : value? decimalAlphabet ds = some i) (hes : value? decimalAlphabet es = some j)
    (h : sign n ++ (ds ++ cs) = sign k ++ (es ++ bs)) : sign n = sign k ∧ ds ++ cs = es ++ bs := by
  obtain ⟨d, ds, rfl⟩ := List.exists_cons_of_ne_nil (ne_nil_of_value? hds)
  obtain ⟨e, es, rfl⟩ := List.exists_cons_of_ne_nil (ne_nil_of_value? hes)
  have hd : d ≠ '-' := by
    rintro rfl
    exact absurd (mem_of_value? hds (List.mem_cons_self ..)) (by decide)
  have he : e ≠ '-' := by
    rintro rfl
    exact absurd (mem_of_value? hes (List.mem_cons_self ..)) (by decide)
  by_cases hn : n < 0 <;> by_cases hk : k < 0 <;> simp only [sign, hn, hk, if_true, if_false] at h ⊢
  · exact ⟨trivial, List.append_cancel_left h⟩
  · exact absurd (List.cons.inj h).1.symm he
  · exact absurd (List.cons.inj h).1 hd
  · exact ⟨trivial, h⟩

theorem IsDecimal.inj (hn : IsDecimal n text) (hk : IsDecimal k text) : n = k := by
  obtain ⟨ds, hds, rfl⟩ := hn
  obtain ⟨es, hes, htext⟩ := hk
  have hends : sign n ++ (ds ++ []) = sign k ++ (es ++ []) := by simpa using htext
  obtain ⟨hsign, hletters⟩ := sign_append_inj hds.value hes.value hends
  have habs := hds.value
  rw [show ds = es by simpa using hletters, hes.value] at habs
  exact eq_of_sign_eq hsign (Option.some.inj habs).symm

theorem IsSeconds.inj (hn : IsSeconds n text) (hk : IsSeconds k text) : n = k := by
  obtain ⟨s, f, whole, fraction, hwhole, hfraction, hlength, habs, rfl⟩ := hn
  obtain ⟨s', f', whole', fraction', hwhole', hfraction', hlength', habs', htext⟩ := hk
  obtain ⟨hsign, hletters⟩ := sign_append_inj hwhole.value hwhole'.value (by simpa using htext)
  -- both fractions are six digits long, so the points stand at the same place
  obtain ⟨rfl, hpoint⟩ := List.append_inj' hletters (by simp [hlength, hlength'])
  obtain rfl := (List.cons.inj hpoint).2
  obtain rfl : s = s' := Option.some.inj (hwhole.value.symm.trans hwhole'.value)
  obtain rfl : f = f' := Option.some.inj (hfraction.symm.trans hfraction')
  exact eq_of_sign_eq hsign (habs.trans habs'.symm)

/-- The number behind the padding and the mark of a hint. -/
def readPattern? (h : Hint) (text : List Char) : Option Nat :=
  value? h.kind.alphabet ((text.dropWhile (· == ' ')).drop h.mark.length)

theorem readPattern?_eq (hform : IsPattern h m text) : readPattern? h text = some m := by
  obtain ⟨spaces, zeros, ds, hds, -, rfl, -⟩ := hform
  have hzero : h.kind.alphabet.idxOf? '0' = some 0 := by cases h.kind <;> decide
  have hvalue := value?_replicate_append hzero zeros hds.value
  have hspace : ' ' ∉ h.mark ++ (List.replicate zeros '0' ++ ds) := by
    have hmark : ' ' ∉ h.mark := by
      unfold Hint.mark
      cases h.kind <;> cases h.alternate <;> decide
    have halphabet : ' ' ∉ h.kind.alphabet := by cases h.kind <;> decide
    intro hmem
    rcases List.mem_append.mp hmem with hmem | hmem
    · exact hmark hmem
    · exact halphabet (mem_of_value? hvalue hmem)
  have hdrop : (List.replicate spaces ' ' ++ (h.mark ++ (List.replicate zeros '0' ++ ds))).dropWhile
      (· == ' ') = h.mark ++ (List.replicate zeros '0' ++ ds) := by
    rw [List.dropWhile_append_of_pos (by simp)]
    apply List.dropWhile_eq_self_iff.mpr
    intro hpos hhead
    apply hspace
    rw [← beq_iff_eq.mp hhead]
    exact List.getElem_mem hpos
  rw [readPattern?, hdrop, List.drop_left]
  exact hvalue

/-- Modulo `2 ^ bits` no two integers of a type are the same. -/
theorem eq_of_emod_eq (hn : InRange signed bits n) (hk : InRange signed bits k)
    (h : n % 2 ^ bits = k % 2 ^ bits) : n = k := by
  have hdvd : (2 ^ bits : Int) ∣ n - k := Int.ModEq.dvd h.symm
  have hlt : |n - k| < 2 ^ bits := by
    rw [abs_lt]
    cases signed
    · simp only [InRange, Bool.false_eq_true, if_false] at hn hk
      omega
    · simp only [InRange, if_true] at hn hk
      omega
  have := Int.eq_zero_of_abs_lt_dvd hdvd hlt
  omega

/-- What is shown for an integer can be read back if its type is known. -/
theorem Shows.inj {hint : Option Hint} (hn : InRange signed bits n) (hk : InRange signed bits k)
    (hshows : Shows bits n hint text) (hshows' : Shows bits k hint text) : n = k := by
  cases hint with
  | none => exact IsDecimal.inj hshows hshows'
  | some h =>
    unfold Shows at hshows hshows'
    cases hbase : h.kind.radix? with
    | some base =>
      simp only [hbase] at hshows hshows'
      obtain ⟨-, i, hi, hform⟩ := hshows
      obtain ⟨-, j, hj, hform'⟩ := hshows'
      apply eq_of_emod_eq hn hk
      have hread := readPattern?_eq hform
      rw [readPattern?_eq hform'] at hread
      rw [← hi, ← hj, Option.some.inj hread]
    | none =>
      simp only [hbase] at hshows hshows'
      by_cases hmicros : h.kind = .micros
      · rw [if_pos hmicros] at hshows hshows'
        exact hshows.inj hshows'
      · rw [if_neg hmicros] at hshows hshows'
        exact hshows.inj hshows'

/-! ## Faithfulness -/

/-- Every integer of a type is shown in the form that the hint asks for, and no two are shown alike. -/
theorem integerText_faithful (signed : Bool) (bits : Nat) (hint : Option Hint) :
    (∀ n, InRange signed bits n → Shows bits n hint (integerText bits n hint)) ∧
    (∀ n k, InRange signed bits n → InRange signed bits k →
      integerText bits n hint = integerText bits k hint → n = k) := by
  refine ⟨fun n hn => shows_integerText hn hint, ?_⟩
  intro n k hn hk htext
  have hshows := shows_integerText hn hint
  rw [htext] at hshows
  exact hshows.inj hn hk (shows_integerText hk hint)

/-- The least integer of eight bits with a sign, with a mark and zero padding. -/
theorem integerText_faithful_least :
    integerText 8 (-128) (some ⟨.lowerHex, true, true, 6⟩) = "0x0080".toList ∧
    Shows 8 (-128) (some ⟨.lowerHex, true, true, 6⟩) "0x0080".toList :=
  ⟨by decide, (integerText_faithful true 8 (some ⟨.lowerHex, true, true, 6⟩)).1 (-128)
    ⟨by decide, by decide⟩⟩

end Display

end DeferredLog
