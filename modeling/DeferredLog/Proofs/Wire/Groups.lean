import DeferredLog.Proofs.Wire.RoundTrip
import Mathlib.Tactic.Ring

/-!
# Numbers in groups of seven bits

A variable-length number ends with the first byte whose top bit is clear. `Stands limit n k r` says that
these are the first `k` bytes of `r`, at most `limit`, and that `n` is the sum of their groups. If there
is no such byte among the first `limit` ones, the number is refused as too long, or else bytes are
missing:

    reading at an offset returns `n` and takes `k` bytes ↔ Stands 10 n k (the bytes from there on)

with the two refusals characterised alike, and what `toUleb128` writes is read back up to `2 ^ 70` and
refused from there on (uleb128_decides).
-/

namespace DeferredLog

/-! ## Groups -/

/-- The top bit of a byte is set: another group follows. -/
def Continues (b : UInt8) : Prop := b.toNat.testBit 7 = true

theorem continues_iff {b : UInt8} : Continues b ↔ 128 ≤ b.toNat := by
  have hb : b.toNat < 256 := b.toNat_lt
  rw [Continues, Nat.testBit_eq_decide_div_mod_eq, decide_eq_true_eq]
  omega

instance (b : UInt8) : Decidable (Continues b) := inferInstanceAs (Decidable (_ = true))

/-- The sum of the low seven bits of bytes, each weighted by its place. -/
def groupSum (bs : List UInt8) : Nat := (bs.mapIdx fun i b => b.toNat % 128 * 128 ^ i).sum

@[simp] theorem groupSum_nil : groupSum [] = 0 := rfl

theorem sum_mapIdx_mul (m : Nat) (f : Nat → UInt8 → Nat) (bs : List UInt8) :
    (bs.mapIdx fun i b => m * f i b).sum = m * (bs.mapIdx f).sum := by
  induction bs generalizing f with
  | nil => rfl
  | cons b bs ih =>
    rw [List.mapIdx_cons, List.mapIdx_cons, List.sum_cons, List.sum_cons, Nat.mul_add,
      ih fun i => f (i + 1)]

theorem groupSum_cons (b : UInt8) (bs : List UInt8) :
    groupSum (b :: bs) = b.toNat % 128 + 128 * groupSum bs := by
  have hshift (i : Nat) (c : UInt8) :
      c.toNat % 128 * 128 ^ (i + 1) = 128 * (c.toNat % 128 * 128 ^ i) := by
    rw [Nat.pow_succ, Nat.mul_comm (128 ^ i) 128, Nat.mul_left_comm]
  simp only [groupSum, List.mapIdx_cons, List.sum_cons, Nat.pow_zero, Nat.mul_one, hshift,
    sum_mapIdx_mul]

theorem groupSum_lt (bs : List UInt8) : groupSum bs < 128 ^ bs.length := by
  induction bs with
  | nil => exact Nat.one_pos
  | cons b bs ih =>
    have hgroup : b.toNat % 128 < 128 := Nat.mod_lt _ (by decide)
    rw [groupSum_cons, List.length_cons, Nat.pow_succ]
    omega

/-! ## Numbers -/

/-- The number `n` stands in the first `k` bytes, of which there may be `limit`. -/
structure Stands (limit n k : Nat) (r : List UInt8) : Prop where
  pos : 1 ≤ k
  le_limit : k ≤ limit
  continues : ∀ b ∈ r.take (k - 1), Continues b
  ends : ∃ b, r[k - 1]? = some b ∧ ¬ Continues b
  value : n = groupSum (r.take k)

namespace Stands

variable {limit n n' k k' : Nat} {r : List UInt8} {b : UInt8}

/-- One group. -/
theorem last (hb : ¬ Continues b) (limit : Nat) (r : List UInt8) :
    Stands (limit + 1) b.toNat 1 (b :: r) where
  pos := Nat.le_refl 1
  le_limit := by omega
  continues := fun c hc => absurd hc List.not_mem_nil
  ends := ⟨b, rfl, hb⟩
  value := by
    rw [continues_iff] at hb
    rw [List.take_succ_cons, List.take_zero, groupSum_cons, groupSum_nil]
    omega

/-- A group in front of others. -/
theorem more (hb : Continues b) (h : Stands limit n k r) :
    Stands (limit + 1) (b.toNat % 128 + 128 * n) (k + 1) (b :: r) := by
  obtain ⟨k, rfl⟩ := Nat.exists_eq_succ_of_ne_zero (show k ≠ 0 by have := h.pos; omega)
  refine ⟨by omega, Nat.succ_le_succ h.le_limit, ?_, h.ends, ?_⟩
  · exact List.forall_mem_cons.mpr ⟨hb, h.continues⟩
  · rw [List.take_succ_cons, groupSum_cons, h.value]

theorem lt_pow (h : Stands limit n k r) : n < 128 ^ limit := by
  have hlength : (r.take k).length ≤ limit := Nat.le_trans (List.length_take_le k r) h.le_limit
  calc n = groupSum (r.take k) := h.value
    _ < 128 ^ (r.take k).length := groupSum_lt _
    _ ≤ 128 ^ limit := Nat.pow_le_pow_right (by decide) hlength

/-- The byte that ends a number is among any bytes that go further. -/
theorem exists_mem_take (h : Stands limit n k r) {count : Nat} (hk : k ≤ count) :
    ∃ b ∈ r.take count, ¬ Continues b := by
  obtain ⟨b, hget, hb⟩ := h.ends
  have hpos := h.pos
  refine ⟨b, List.mem_of_getElem? (i := k - 1) ?_, hb⟩
  rw [List.getElem?_take_of_lt (by omega), hget]

theorem not_forall_take (h : Stands limit n k r) : ¬ ∀ b ∈ r.take limit, Continues b := by
  intro hall
  obtain ⟨b, hmem, hb⟩ := h.exists_mem_take h.le_limit
  exact hb (hall b hmem)

theorem not_forall (h : Stands limit n k r) : ¬ ∀ b ∈ r, Continues b :=
  fun hall => h.not_forall_take fun b hb => hall b (List.mem_of_mem_take hb)

theorem le_of_stands (h : Stands limit n k r) (h' : Stands limit n' k' r) : k ≤ k' := by
  by_contra hlt
  obtain ⟨b, hmem, hb⟩ := h'.exists_mem_take (show k' ≤ k - 1 by omega)
  exact hb (h.continues b hmem)

/-- There is one number in the first bytes, and it takes one number of them. -/
theorem unique (h : Stands limit n k r) (h' : Stands limit n' k' r) : n = n' ∧ k = k' := by
  obtain rfl : k = k' := Nat.le_antisymm (h.le_of_stands h') (h'.le_of_stands h)
  exact ⟨h.value.trans h'.value.symm, rfl⟩

end Stands

/-! ## Reading -/

namespace Cursor

variable {limit offset : Nat} {b : UInt8} {r : List UInt8}

theorem uleb128Within_cons_last (hb : ¬ Continues b) :
    uleb128Within (limit + 1) ⟨b :: r, offset, 0⟩ = .ok (b.toNat, ⟨r, offset + 1, 0⟩) := by
  rw [continues_iff, Nat.not_le] at hb
  rw [uleb128Within_eq]
  show uleb128After limit b ⟨r, offset + 1, 0⟩ = _
  rw [uleb128After, if_pos hb]

theorem uleb128Within_cons_more (hb : Continues b) :
    uleb128Within (limit + 1) ⟨b :: r, offset, 0⟩ =
      uleb128Within limit ⟨r, offset + 1, 0⟩ >>= fun p => .ok (b.toNat % 128 + 128 * p.1, p.2) := by
  rw [continues_iff] at hb
  rw [uleb128Within_eq]
  show uleb128After limit b ⟨r, offset + 1, 0⟩ = _
  rw [uleb128After, if_neg (by omega)]

/-- How the reading of a number from the bytes `r` can end. -/
inductive Ends (limit offset : Nat) (r : List UInt8) : Except Fault (Nat × Cursor) → Prop
  | number {n k : Nat} : Stands limit n k r → Ends limit offset r (.ok (n, ⟨r.drop k, offset + k, 0⟩))
  | tooLong : limit ≤ r.length → (∀ b ∈ r.take limit, Continues b) →
      Ends limit offset r (.error (.value .longNumber))
  | missing : r.length < limit → (∀ b ∈ r, Continues b) → Ends limit offset r (.error (.starved 1))

/-- A byte in front of others is added to whatever their reading ends with. -/
theorem Ends.cons {result : Except Fault (Nat × Cursor)} (hb : Continues b)
    (h : Ends limit (offset + 1) r result) :
    Ends (limit + 1) offset (b :: r)
      (result >>= fun p => .ok (b.toNat % 128 + 128 * p.1, p.2)) := by
  cases h with
  | @number n k hstands =>
    have hends : Ends (limit + 1) offset (b :: r) _ := .number (hstands.more hb)
    rwa [List.drop_succ_cons, Nat.add_comm k 1, ← Nat.add_assoc] at hends
  | tooLong hlimit hall =>
    exact .tooLong (Nat.succ_le_succ hlimit) (List.forall_mem_cons.mpr ⟨hb, hall⟩)
  | missing hlimit hall => exact .missing (Nat.succ_lt_succ hlimit) (List.forall_mem_cons.mpr ⟨hb, hall⟩)

/-- Every reading ends in one of these ways, by induction on the groups that may still follow. -/
theorem uleb128Within_ends (limit offset : Nat) (r : List UInt8) :
    Ends limit offset r (uleb128Within limit ⟨r, offset, 0⟩) := by
  induction limit generalizing offset r with
  | zero => exact .tooLong (Nat.zero_le _) fun b hb => absurd hb List.not_mem_nil
  | succ limit ih =>
    cases r with
    | nil => exact .missing (Nat.succ_pos _) fun b hb => absurd hb List.not_mem_nil
    | cons b r =>
      by_cases hb : Continues b
      · rw [uleb128Within_cons_more hb]
        exact (ih (offset + 1) r).cons hb
      · rw [uleb128Within_cons_last hb]
        exact .number (.last hb limit r)

theorem ofData_eq {data : List UInt8} (h : offset ≤ data.length) :
    ofData data offset = ⟨data.drop offset, offset, 0⟩ := by
  rw [ofData, Nat.sub_eq_zero_of_le h]

section
variable {data : List UInt8} (hoffset : offset ≤ data.length)

include hoffset

theorem uleb128_ends : Ends maxNumberBytes offset (data.drop offset) (ofData data offset).uleb128 := by
  rw [ofData_eq hoffset]
  exact uleb128Within_ends maxNumberBytes offset _

theorem ofData_add {n k : Nat} (h : Stands limit n k (data.drop offset)) :
    ofData data (offset + k) = ⟨(data.drop offset).drop k, offset + k, 0⟩ := by
  obtain ⟨b, hget, -⟩ := h.ends
  have hlt := (List.getElem?_eq_some_iff.mp hget).1
  have hpos := h.pos
  rw [List.length_drop] at hlt
  rw [ofData_eq (by omega), List.drop_drop]

theorem uleb128_eq_ok_iff (n : Nat) (c : Cursor) :
    (ofData data offset).uleb128 = .ok (n, c) ↔
      ∃ k, Stands maxNumberBytes n k (data.drop offset) ∧ c = ofData data (offset + k) := by
  have hends := uleb128_ends hoffset
  constructor
  · intro h
    rw [h] at hends
    cases hends with
    | number hstands => exact ⟨_, hstands, (ofData_add hoffset hstands).symm⟩
  · rintro ⟨k, hstands, rfl⟩
    rw [ofData_add hoffset hstands]
    generalize (ofData data offset).uleb128 = result at hends
    cases hends with
    | number hstands' =>
      obtain ⟨rfl, rfl⟩ := hstands.unique hstands'
      rfl
    | tooLong hlimit hall => exact absurd hall hstands.not_forall_take
    | missing hlimit hall => exact absurd hall hstands.not_forall

theorem uleb128_malformed_iff :
    (∃ e, (ofData data offset).uleb128 = .error e ∧ e.kind = .malformedValue) ↔
      maxNumberBytes ≤ (data.drop offset).length ∧
        ∀ b ∈ (data.drop offset).take maxNumberBytes, Continues b := by
  have hends := uleb128_ends hoffset
  generalize (ofData data offset).uleb128 = result at hends
  cases hends with
  | number hstands =>
    refine iff_of_false ?_ fun h => hstands.not_forall_take h.2
    rintro ⟨e, he, -⟩
    cases he
  | tooLong hlimit hall => exact iff_of_true ⟨_, rfl, rfl⟩ ⟨hlimit, hall⟩
  | missing hlimit hall =>
    refine iff_of_false ?_ fun h => Nat.not_le_of_lt hlimit h.1
    rintro ⟨e, he, hkind⟩
    rw [← Except.error.inj he] at hkind
    cases hkind

theorem uleb128_starved_iff :
    (∃ e, (ofData data offset).uleb128 = .error e ∧ e.kind = .starved) ↔
      (data.drop offset).length < maxNumberBytes ∧ ∀ b ∈ data.drop offset, Continues b := by
  have hends := uleb128_ends hoffset
  generalize (ofData data offset).uleb128 = result at hends
  cases hends with
  | number hstands =>
    refine iff_of_false ?_ fun h => hstands.not_forall h.2
    rintro ⟨e, he, -⟩
    cases he
  | tooLong hlimit hall =>
    refine iff_of_false ?_ fun h => Nat.not_le_of_lt h.1 hlimit
    rintro ⟨e, he, hkind⟩
    rw [← Except.error.inj he] at hkind
    cases hkind
  | missing hlimit hall => exact iff_of_true ⟨_, rfl, rfl⟩ ⟨hlimit, hall⟩

end

end Cursor

/-! ## What is written -/

/-- A number with more bits than fit in `limit` groups has so many bytes that another one follows. -/
theorem toUleb128_continues {limit n : Nat} (h : 128 ^ limit ≤ n) :
    limit ≤ (toUleb128 n).length ∧ ∀ b ∈ (toUleb128 n).take limit, Continues b := by
  induction limit generalizing n with
  | zero => exact ⟨Nat.zero_le _, fun b hb => absurd hb List.not_mem_nil⟩
  | succ limit ih =>
    have hpos : 0 < 128 ^ limit := Nat.pow_pos (by decide)
    rw [Nat.pow_succ] at h
    obtain ⟨hlength, hall⟩ := ih ((Nat.le_div_iff_mul_le (by decide)).mpr h)
    have hbyte : (UInt8.ofNat (n % 128 + 128)).toNat = n % 128 + 128 :=
      UInt8.toNat_ofNat_of_lt' (show n % 128 + 128 < 256 by omega)
    rw [toUleb128_of_le (by omega), List.length_cons, List.take_succ_cons]
    refine ⟨Nat.succ_le_succ hlength, List.forall_mem_cons.mpr ⟨?_, hall⟩⟩
    rw [continues_iff, hbyte]
    omega

theorem length_toUleb128_le {count n : Nat} (h : n < 128 ^ (count + 1)) :
    (toUleb128 n).length ≤ count + 1 := by
  induction count generalizing n with
  | zero =>
    rw [toUleb128_of_lt h]
    exact Nat.le_refl 1
  | succ count ih =>
    by_cases hn : n < 128
    · rw [toUleb128_of_lt hn]
      exact Nat.succ_le_succ (Nat.zero_le _)
    · have hdiv : n / 128 < 128 ^ (count + 1) := Nat.div_lt_of_lt_mul (by rwa [Nat.mul_comm])
      rw [toUleb128_of_le (by omega), List.length_cons]
      exact Nat.succ_le_succ (ih hdiv)

/-- What is written for a number is as short as any bytes that it stands in. -/
theorem Stands.length_toUleb128_le {limit n k : Nat} {r : List UInt8} (h : Stands limit n k r) :
    (toUleb128 n).length ≤ k := by
  obtain ⟨count, rfl⟩ := Nat.exists_eq_succ_of_ne_zero (show k ≠ 0 by have := h.pos; omega)
  have hlength : (r.take (count + 1)).length ≤ count + 1 := List.length_take_le _ _
  apply DeferredLog.length_toUleb128_le
  calc n = groupSum (r.take (count + 1)) := h.value
    _ < 128 ^ (r.take (count + 1)).length := groupSum_lt _
    _ ≤ 128 ^ (count + 1) := Nat.pow_le_pow_right (by decide) hlength

/-! ## Numbers at an offset -/

namespace Cursor

/-- **Variable-length numbers.** What is read at an offset is decided by the first bytes from there on:
the number that stands in them, a refusal if the first ten all have the top bit set, or the request for
more if there are fewer and all of them have. The shortest bytes for a number are read back up to
`2 ^ 70`, whatever stands around them, and refused from there on. -/
theorem uleb128_decides (data : List UInt8) (offset : Nat) (hoffset : offset ≤ data.length) :
    (∀ n c, (ofData data offset).uleb128 = .ok (n, c) ↔
      ∃ k, Stands 10 n k (data.drop offset) ∧ c = ofData data (offset + k)) ∧
    ((∃ e, (ofData data offset).uleb128 = .error e ∧ e.kind = .malformedValue) ↔
      10 ≤ (data.drop offset).length ∧ ∀ b ∈ (data.drop offset).take 10, Continues b) ∧
    ((∃ e, (ofData data offset).uleb128 = .error e ∧ e.kind = .starved) ↔
      (data.drop offset).length < 10 ∧ ∀ b ∈ data.drop offset, Continues b) ∧
    (∀ n k, Stands 10 n k (data.drop offset) → n < 2 ^ 70 ∧ (toUleb128 n).length ≤ k) ∧
    ∀ n rest, data.drop offset = toUleb128 n ++ rest →
      (n < 2 ^ 70 → (ofData data offset).uleb128 =
        .ok (n, ofData data (offset + (toUleb128 n).length))) ∧
      (2 ^ 70 ≤ n → ∃ e, (ofData data offset).uleb128 = .error e ∧ e.kind = .malformedValue) := by
  refine ⟨uleb128_eq_ok_iff hoffset, uleb128_malformed_iff hoffset, uleb128_starved_iff hoffset,
    fun n k h => ⟨h.lt_pow, h.length_toUleb128_le⟩, fun n rest hdata => ⟨fun hn => ?_, fun hn => ?_⟩⟩
  · have hread : uleb128 ⟨toUleb128 n ++ rest, offset, 0⟩ =
        .ok (n, ⟨rest, offset + (toUleb128 n).length, 0⟩) := uleb128_reads hn rest offset
    have hlength : offset + (toUleb128 n).length ≤ data.length := by
      have hlength := congrArg List.length hdata
      rw [List.length_drop, List.length_append] at hlength
      omega
    rw [ofData_eq hoffset, ofData_eq hlength, hdata, hread, ← List.drop_drop, hdata, List.drop_left]
  · obtain ⟨hlength, hall⟩ := toUleb128_continues (show 128 ^ 10 ≤ n from hn)
    refine (uleb128_malformed_iff hoffset).mpr ?_
    show 10 ≤ _ ∧ ∀ b ∈ (data.drop offset).take 10, Continues b
    rw [hdata, List.take_append_of_le_length hlength, List.length_append]
    exact ⟨Nat.le_trans hlength (Nat.le_add_right ..), hall⟩

/-- A number that is written longer than need be, behind another byte. -/
theorem uleb128_decides_padded :
    1 ≤ [0xff, 0x96, 0x81, 0x00, 0x07].length ∧
      (ofData [0xff, 0x96, 0x81, 0x00, 0x07] 1).uleb128 =
        .ok (150, ofData [0xff, 0x96, 0x81, 0x00, 0x07] 4) := by
  have hdecides := uleb128_decides [0xff, 0x96, 0x81, 0x00, 0x07] 1 (by decide)
  have hcontinues : ∀ b ∈ ([0x96, 0x81] : List UInt8), Continues b :=
    List.forall_mem_cons.mpr ⟨by decide, List.forall_mem_singleton.mpr (by decide)⟩
  have hends : ∃ b, ([0x96, 0x81, 0x00, 0x07] : List UInt8)[2]? = some b ∧ ¬ Continues b :=
    ⟨0x00, rfl, by decide⟩
  have hvalue : 150 = groupSum [0x96, 0x81, 0x00] := by
    simp only [groupSum_cons, groupSum_nil]
    decide
  have hstands : Stands 10 150 3 [0x96, 0x81, 0x00, 0x07] :=
    ⟨by decide, by decide, hcontinues, hends, hvalue⟩
  exact ⟨by decide, (hdecides.1 150 _).mpr ⟨3, hstands, rfl⟩⟩

end Cursor

end DeferredLog
