import Mathlib
import DeferredLog.Display.Value
import DeferredLog.Proofs.FormatString.Merging
import DeferredLog.Proofs.FormatString.Printing
import DeferredLog.Proofs.Wire.RoundTrip

/-!
# Bit fields from the format string to the text

The directives on a position are read off one slot. The wire carries those bytes of the backing integer
that the slot touches, decoding puts them back where they were, and each directive cuts its own bits
out of the result. The slot is the hull of all directives, so none of their bits is missing, and bits
that only other directives want are cut away.

    carried n >>> low % 2 ^ width = n >>> low % 2 ^ width for a range that the slot covers
                                                                                   (bits_carried)
    decoding, extracting and rendering by way of the merged slot             (bitfields_end_to_end)
-/

namespace DeferredLog

/-! ## The bits that travel -/

namespace BitRange

variable {slot r : BitRange}

/-- What is left of an integer when only those bytes travel that a range touches. -/
def carried (r : BitRange) (n : Nat) : Nat :=
  n / Nat.pow 256 r.lowByte % Nat.pow 256 r.byteCount * Nat.pow 256 r.lowByte

/-- The bits that a range selects. -/
def bits (r : BitRange) (n : Nat) : Nat := (n >>> r.low) % Nat.pow 2 (r.high - r.low + 1)

/-- The bits of these bytes are kept, all others are zero. -/
theorem testBit_carried (r : BitRange) (n i : Nat) :
    (r.carried n).testBit i =
      (decide (8 * r.lowByte ≤ i) && (decide (i < 8 * (r.lowByte + r.byteCount)) && n.testBit i)) := by
  have hpow : ∀ k, Nat.pow 256 k = 2 ^ (8 * k) := fun k => (Nat.pow_mul 2 8 k).symm
  rw [carried, hpow, hpow, Nat.testBit_mul_two_pow, Nat.testBit_mod_two_pow,
    Nat.testBit_div_two_pow]
  by_cases hi : 8 * r.lowByte ≤ i
  · rw [show i - 8 * r.lowByte + 8 * r.lowByte = i by omega]
    have hcount : i - 8 * r.lowByte < 8 * r.byteCount ↔ i < 8 * (r.lowByte + r.byteCount) := by omega
    simp [hi, hcount]
  · simp [hi]

/-- A slot carries the bits of every range that it covers. -/
theorem bits_carried (hlow : slot.low ≤ r.low) (hhigh : r.high ≤ slot.high) (n : Nat) :
    r.bits (slot.carried n) = r.bits n := by
  have hr := r.low_lt_high
  apply Nat.eq_of_testBit_eq
  intro i
  show ((_ >>> r.low) % 2 ^ (r.high - r.low + 1)).testBit i =
    ((_ >>> r.low) % 2 ^ (r.high - r.low + 1)).testBit i
  rw [Nat.testBit_mod_two_pow, Nat.testBit_mod_two_pow, Nat.testBit_shiftRight,
    Nat.testBit_shiftRight, testBit_carried]
  by_cases hi : i < r.high - r.low + 1
  · have hfirst : 8 * slot.lowByte ≤ r.low + i := by
      unfold lowByte
      omega
    have hlast : r.low + i < 8 * (slot.lowByte + slot.byteCount) := by
      unfold lowByte byteCount
      omega
    simp [hfirst, hlast]
  · simp [hi]

theorem carried_lt (r : BitRange) (n : Nat) :
    r.carried n < Nat.pow 256 (r.lowByte + r.byteCount) := by
  have hpos : ∀ k, 0 < Nat.pow 256 k := fun k => Nat.pow_pos (by decide)
  have hlt := Nat.mod_lt (n / Nat.pow 256 r.lowByte) (hpos r.byteCount)
  have hpow : Nat.pow 256 (r.lowByte + r.byteCount) =
      Nat.pow 256 r.byteCount * Nat.pow 256 r.lowByte := by
    rw [Nat.mul_comm]
    exact Nat.pow_add ..
  rw [hpow]
  exact Nat.mul_lt_mul_of_pos_right hlt (hpos r.lowByte)

end BitRange

/-! ## Decoding the slot -/

/-- Bytes that are not written do not matter. -/
theorem toLittleEndian_mod (size n : Nat) :
    toLittleEndian size (n % Nat.pow 256 size) = toLittleEndian size n := by
  induction size generalizing n with
  | zero => rfl
  | succ size ih =>
    have hpow : Nat.pow 256 (size + 1) = 256 * Nat.pow 256 size := Nat.pow_succ'
    have hbyte : n % (256 * Nat.pow 256 size) % 256 = n % 256 := Nat.mod_mul_right_mod ..
    have hrest : n % (256 * Nat.pow 256 size) / 256 = n / 256 % Nat.pow 256 size :=
      Nat.mod_mul_right_div_self ..
    rw [hpow, toLittleEndian, toLittleEndian, hbyte, hrest, ih]

namespace BitRange

theorem encode_carried (r : BitRange) (n : Nat) : r.encode (r.carried n) = r.encode n := by
  have hpos : 0 < Nat.pow 256 r.lowByte := Nat.pow_pos (by decide)
  rw [Wire.encode_bitRange, Wire.encode_bitRange, carried, Nat.mul_div_cancel _ hpos,
    toLittleEndian_mod]

end BitRange

/-- The bytes of any integer are read back as what they carry of it. -/
theorem Wire.bitfield_reads_carried (r : BitRange) (n : Nat) :
    Reads (bitfield r) (r.encode n) (.bitfield r (r.carried n)) := by
  have hread := bitfield_reads (r.carried_lt n) (Nat.mul_mod_left ..)
  rwa [r.encode_carried] at hread

/-- Decoding a slot takes the bytes that it touches and no others, whatever is around them. -/
theorem Wire.decodeArgument_bitfield (t : Table) (cache : FormatCache) (depth : Nat) (r : BitRange)
    (n : Nat) (before after : List UInt8) :
    (Wire.decodeArgument t t.format depth (.bitfield r)
        (Cursor.ofData (before ++ r.encode n ++ after) before.length)).result cache =
      .ok (.bitfield r (r.carried n),
        Cursor.ofData (before ++ r.encode n ++ after) (before.length + (r.encode n).length)) := by
  have hstart : Cursor.ofData (before ++ r.encode n ++ after) before.length =
      ⟨r.encode n ++ after, before.length, 0⟩ := by
    rw [List.append_assoc, Cursor.ofData_append]
  have hend : Cursor.ofData (before ++ r.encode n ++ after)
      (before.length + (r.encode n).length) = ⟨after, before.length + (r.encode n).length, 0⟩ := by
    rw [← List.length_append, Cursor.ofData_append]
  rw [hstart, hend]
  show (Fault.lift (bitfield r _) : Cached _).result cache = _
  rw [bitfield_reads_carried]
  rfl

/-! ## Extracting and rendering -/

theorem extractBits?_natCast (r : BitRange) (n : Nat) :
    extractBits? n r.low r.high = some (r.bits n : Int) := by
  have hr := r.low_lt_high
  rw [extractBits?, if_neg (by omega), Int.toNat_natCast,
    show ((r.high : Int) - r.low + 1).toNat = r.high - r.low + 1 by omega]
  rfl

namespace Display

variable {m : Type → Type} [Monad m] [LawfulMonad m] [MonadExceptOf Fault m]

/-- A directive shows its own bits, whatever the range of the slot is. -/
theorem renderValue_bitfield (formats : Nat → m FormatString) (slot : BitRange) (n : Nat)
    {d : Directive} {r : BitRange} (hd : d.type = .bitfield r) (hint : Option Hint) :
    renderValue formats (.bitfield slot n) d hint =
      pure (.chars (integerText r.backing.bits (r.bits n) (hint.or d.hint))) := by
  have htext : bitfieldText d n (hint.or d.hint) =
      .ok (integerText r.backing.bits (r.bits n) (hint.or d.hint)) := by
    rw [bitfieldText, hd]
    dsimp only
    rw [extractBits?_natCast]
  rw [renderValue, renderer]
  dsimp only
  rw [htext]
  exact pure_bind _ _

end Display

/-! ## The whole way -/

/-- **Bit fields end to end.** Ranges of one backing integer on one position have a merged slot, their
hull. They are entered into it in any order, between any other directives that go together, whose slots
they leave alone; written out, they are accepted unless a position is left out; and every format string
that has them on the position has this slot. Of any integer, decoding the slot takes the bytes from the
lowest to the highest that a range touches, and each directive extracts and shows its own bits. -/
theorem bitfields_end_to_end (t : Table) (cache : FormatCache) (position : Nat) (backing : Backing)
    (ranges : List BitRange) (hne : ranges ≠ []) (hbacking : ∀ r ∈ ranges, r.backing = backing) :
    ∃ slot : BitRange, slot.IsHull ranges ∧
      (∀ (ds : List Directive) (others : Slots),
        (Slots.typesAt position ds).Perm (ranges.map .bitfield) →
        Slots.enterAll [] (ds.filter fun d => d.position ≠ position) = .ok others →
        (∃ slots, Slots.enterAll [] ds = .ok slots ∧
          slots.lookup position = some (.bitfield slot) ∧
          ∀ q ≠ position, slots.lookup q = others.lookup q) ∧
        (Slots.Gapless ds →
          ∃ f, FormatString.parse (String.ofList (ds.flatMap Directive.written)) = .ok f ∧
            f.directives = ds)) ∧
      (∀ (text : String) (f : FormatString), FormatString.parse text = .ok f →
        (Slots.typesAt position f.directives).Perm (ranges.map .bitfield) →
        f.arguments[position]? = some (.bitfield slot)) ∧
      ∀ v : Nat, ∃ value : Nat,
        (∀ (depth : Nat) (before after : List UInt8),
          let bytes := ((toLittleEndian (backing.bits / 8) v).drop (slot.low / 8)).take
            (slot.high / 8 - slot.low / 8 + 1)
          let data := before ++ bytes ++ after
          (Wire.decodeArgument t t.format depth (.bitfield slot)
              (Cursor.ofData data before.length)).result cache =
            .ok (.bitfield slot value, Cursor.ofData data (before.length + bytes.length))) ∧
        ∀ r ∈ ranges, extractBits? value r.low r.high = some (r.bits v : Int) ∧
          ∀ (d : Directive) (hint : Option Hint), d.type = .bitfield r →
            (Display.renderValue t.format (.bitfield slot value) d hint).result cache =
              .ok (.chars (Display.integerText backing.bits (r.bits v) (hint.or d.hint))) := by
  obtain ⟨slot, hslot⟩ := Slots.exists_isHull hne hbacking
  have hwidth : slot.backing = backing := by
    obtain ⟨r, hr⟩ := List.exists_mem_of_ne_nil ranges hne
    exact (hslot.backing r hr).symm.trans (hbacking r hr)
  refine ⟨slot, hslot, fun ds others htypes hothers => ?_,
    fun text f hf htypes => FormatString.arguments_of_isHull hf hslot htypes,
    fun v => ⟨slot.carried v, fun depth before after => ?_, fun r hr => ?_⟩⟩
  · obtain ⟨slots, hslots, hlookup⟩ := Slots.exists_enterAll_bitfields hslot htypes hothers
    exact ⟨⟨slots, hslots, hlookup⟩, FormatString.exists_parse_directives hslots⟩
  · rw [← hwidth]
    exact Wire.decodeArgument_bitfield t cache depth slot v before after
  · have hbits : r.bits (slot.carried v) = r.bits v :=
      BitRange.bits_carried (hslot.low_le hr) (hslot.le_high hr) v
    refine ⟨by rw [extractBits?_natCast, hbits], fun d hint hd => ?_⟩
    rw [Display.renderValue_bitfield t.format slot _ hd, hbits, hbacking r hr]
    rfl

/-- Ranges out of order, one inside another, with a gap between them. -/
def sampleRanges : List BitRange :=
  [⟨.w32, 20, 27, by decide, by decide⟩, ⟨.w32, 11, 17, by decide, by decide⟩,
    ⟨.w32, 13, 14, by decide, by decide⟩]

/-- Their hull. -/
def sampleHull : BitRange := ⟨.w32, 11, 27, by decide, by decide⟩

/-- A format string with these ranges on its second position. -/
def sampleRangeText : String :=
  "\x7b1=u32[20..=27]\x7d \x7b0=str\x7d \x7b1=u32[11..=17]:x\x7d \x7b1=u32[13..=14]\x7d"

theorem isHull_sampleHull : sampleHull.IsHull sampleRanges := ⟨by decide, rfl, rfl⟩

theorem bitfields_end_to_end_sample :
    sampleRanges ≠ [] ∧ (∀ r ∈ sampleRanges, r.backing = .w32) ∧
      (∃ f, FormatString.parse sampleRangeText = .ok f ∧
        f.arguments[1]? = some (.bitfield sampleHull)) ∧
      ∃ value : Nat,
        (∀ after : List UInt8, (Wire.decodeArgument Table.sample Table.sample.format 0
            (.bitfield sampleHull) (Cursor.ofData ([0x03, 0x50, 0xfa] ++ after) 0)).result {} =
          .ok (.bitfield sampleHull value, Cursor.ofData ([0x03, 0x50, 0xfa] ++ after) 3)) ∧
        ∀ r ∈ sampleRanges, extractBits? value r.low r.high = some (r.bits 0xfa500348 : Int) := by
  have hne : sampleRanges ≠ [] := by decide
  have hbacking : ∀ r ∈ sampleRanges, r.backing = .w32 := by decide
  obtain ⟨slot, hslot, -, htext, hvalue⟩ :=
    bitfields_end_to_end Table.sample {} 1 .w32 sampleRanges hne hbacking
  obtain rfl := hslot.unique isHull_sampleHull
  have hparse : ∃ f, FormatString.parse sampleRangeText = .ok f ∧
      Slots.typesAt 1 f.directives = sampleRanges.map .bitfield := ⟨_, by cbv, by decide⟩
  obtain ⟨f, hf, htypes⟩ := hparse
  obtain ⟨value, hread, hbits⟩ := hvalue 0xfa500348
  refine ⟨hne, hbacking, ⟨f, hf, htext _ f hf (.of_eq htypes)⟩, value, fun after => ?_,
    fun r hr => (hbits r hr).1⟩
  exact hread 0 [] after

end DeferredLog
