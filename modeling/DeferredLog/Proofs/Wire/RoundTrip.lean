import DeferredLog.Proofs.Text.Utf8
import DeferredLog.Proofs.Wire.Encoding
import DeferredLog.Proofs.Wire.Readings

/-!
# Values are read back from their encoding

The wire does not say what it carries, so a reading must take exactly the bytes that the encoding of
its value has, or everything after it is read wrongly. `Reads` says that it does, whatever follows. It
is proved of numbers first, then of each type, then of arguments under the assumption that nested
values are read back, and last of nested values by induction on the levels that are left.

    Conforms to the slots → Reads (decodeArguments …) (encodeAll …) vs           (decodeArguments_reads)
-/

namespace DeferredLog

/-- Whatever follows the bytes `used`, a reading takes exactly these and returns `a`. -/
def Reads {α : Type} (r : Cursor → Except Fault (α × Cursor)) (used : List UInt8) (a : α) : Prop :=
  ∀ (rest : List UInt8) (offset : Nat),
    r ⟨used ++ rest, offset, 0⟩ = .ok (a, ⟨rest, offset + used.length, 0⟩)

namespace Reads

variable {α β : Type} {r : Cursor → Except Fault (α × Cursor)}
  {f : α → Cursor → Except Fault (β × Cursor)} {s : Cursor → Except Fault (β × Cursor)}
  {used used' : List UInt8} {a : α} {b : β}

theorem pure (a : α) : Reads (fun c => .ok (a, c)) [] a := fun _ _ => rfl

/-- One reading after another, the second one as the first value asks for it. -/
theorem bind (hr : Reads r used a) (hf : Reads (f a) used' b)
    (hs : ∀ c, s c = r c >>= fun p => f p.1 p.2) : Reads s (used ++ used') b := by
  intro rest offset
  rw [hs, List.append_assoc, hr, List.length_append, ← Nat.add_assoc]
  exact hf rest _

theorem lift (hr : Reads r used a) : Reads (fun c => Fault.lift (r c)) used a := by
  simpa only [Fault.lift_eq_self] using hr

/-- A reading whose value is converted. -/
theorem map (hr : Reads r used a) (g : α → β)
    (hs : ∀ c, s c = r c >>= fun p => .ok (g p.1, p.2)) : Reads s used (g a) := by
  intro rest offset
  rw [hs, hr]
  rfl

/-- A value in front of others that are read by themselves. -/
theorem cons {q : Cursor → Except Fault (List α × Cursor)} {p : Cursor → Except Fault (List α × Cursor)}
    {as : List α} (hr : Reads r used a) (hq : Reads q used' as)
    (hp : ∀ c, p c = r c >>= fun x => q x.2 >>= fun y => .ok (x.1 :: y.1, y.2)) :
    Reads p (used ++ used') (a :: as) :=
  hr.bind (f := fun a c => q c >>= fun y => .ok (a :: y.1, y.2)) (hq.map (a :: ·) fun _ => rfl) hp

end Reads

/-! ## Numbers -/

namespace Cursor

theorem ofData_append (before rest : List UInt8) :
    ofData (before ++ rest) before.length = ⟨rest, before.length, 0⟩ := by
  rw [ofData, List.drop_left, List.length_append, Nat.sub_eq_zero_of_le (Nat.le_add_right ..)]

theorem read_reads (data : List UInt8) : Reads (read data.length) data data := by
  intro rest offset
  simp only [read, Nat.add_zero, List.take_left, advance, List.drop_left]
  exact if_neg (Nat.lt_irrefl _)

theorem byte_reads (b : UInt8) : Reads byte [b] b :=
  (read_reads [b]).map (fun bytes => bytes.headD 0) byte_eq

theorem nat_reads {size n : Nat} (h : n < Nat.pow 256 size) :
    Reads (nat size) (toLittleEndian size n) n := by
  have hread := read_reads (toLittleEndian size n)
  rw [length_toLittleEndian] at hread
  have hnat := hread.map littleEndian fun c => c.nat_eq size
  rwa [littleEndian_toLittleEndian h] at hnat

/-- The last group. -/
theorem uleb128Within_last {n : Nat} (h : n < 128) (limit : Nat) :
    Reads (uleb128Within (limit + 1)) (toUleb128 n) n := by
  have hn : (UInt8.ofNat n).toNat = n := UInt8.toNat_ofNat_of_lt' (show n < 256 by omega)
  have hafter : Reads (uleb128After limit (UInt8.ofNat n)) [] n := by
    intro rest offset
    rw [uleb128After, hn, if_pos h]
    rfl
  rw [toUleb128_of_lt h]
  exact (byte_reads _).bind hafter fun c => c.uleb128Within_eq limit

/-- A group that others follow. -/
theorem uleb128Within_more {limit n : Nat} (h : 128 ≤ n)
    (hhigh : Reads (uleb128Within limit) (toUleb128 (n / 128)) (n / 128)) :
    Reads (uleb128Within (limit + 1)) (toUleb128 n) n := by
  have hn : (UInt8.ofNat (n % 128 + 128)).toNat = n % 128 + 128 :=
    UInt8.toNat_ofNat_of_lt' (show n % 128 + 128 < 256 by omega)
  have hvalue : (n % 128 + 128) % 128 + 128 * (n / 128) = n := by omega
  have hafter : Reads (uleb128After limit (UInt8.ofNat (n % 128 + 128))) (toUleb128 (n / 128)) n := by
    have hmap := hhigh.map (s := uleb128After limit (UInt8.ofNat (n % 128 + 128)))
      (fun high => (n % 128 + 128) % 128 + 128 * high) fun c => by
        rw [uleb128After, hn, if_neg (by omega)]
    rwa [hvalue] at hmap
  rw [toUleb128_of_le h]
  exact (byte_reads _).bind hafter fun c => c.uleb128Within_eq limit

/-- Numbers with up to seven bits for each group that may be read. -/
theorem uleb128Within_reads {limit n : Nat} (h : n < Nat.pow 128 (limit + 1)) :
    Reads (uleb128Within (limit + 1)) (toUleb128 n) n := by
  induction limit generalizing n with
  | zero => exact uleb128Within_last h 0
  | succ limit ih =>
    by_cases hn : n < 128
    · exact uleb128Within_last hn _
    · have hdiv : n / 128 < Nat.pow 128 (limit + 1) :=
        Nat.div_lt_of_lt_mul (by rw [Nat.mul_comm]; exact h)
      exact uleb128Within_more (by omega) (ih hdiv)

theorem uleb128_reads {n : Nat} (h : n < Nat.pow 2 70) : Reads uleb128 (toUleb128 n) n :=
  uleb128Within_reads (show n < Nat.pow 128 (9 + 1) from h)

theorem twosComplement_emod {bits : Nat} {n : Int} (hlow : -(Nat.pow 2 bits : Int) ≤ n)
    (hhigh : n < (Nat.pow 2 bits : Nat)) :
    twosComplement (bits + 1) (n % (Nat.pow 2 (bits + 1) : Nat)).toNat = n := by
  have hpow : Nat.pow 2 (bits + 1) = Nat.pow 2 bits * 2 := rfl
  generalize Nat.pow 2 bits = half at *
  rw [twosComplement, hpow]
  by_cases hn : 0 ≤ n
  · rw [Int.emod_eq_of_lt hn (by omega), if_pos (by omega)]
    omega
  · rw [← Int.add_emod_right, Int.emod_eq_of_lt (by omega) (by omega), if_neg (by omega)]
    omega

theorem pow_bits (k : IntType) : Nat.pow 256 k.size = Nat.pow 2 (8 * k.size) :=
  (Nat.pow_mul 2 8 k.size).symm

theorem uint_reads {k : IntType} {n : Int} (h : k.Holds n) :
    Reads (uint k.size k.signed) (k.encode n) n := by
  have hpos : 0 < Nat.pow 256 k.size := Nat.pow_pos (by decide)
  have hlt : (n % (Nat.pow 256 k.size : Nat)).toNat < Nat.pow 256 k.size := by
    have := Int.emod_lt_of_pos n (Int.natCast_pos.mpr hpos)
    omega
  have hread := (nat_reads hlt).map
    (fun m => if k.signed then twosComplement (8 * k.size) m else m) fun c => c.uint_eq k.size k.signed
  have hvalue : (if k.signed then twosComplement (8 * k.size) (n % (Nat.pow 256 k.size : Nat)).toNat
      else ((n % (Nat.pow 256 k.size : Nat)).toNat : Int)) = n := by
    rw [pow_bits]
    have hbits : k.bits = 8 * k.size := Nat.mul_comm ..
    unfold IntType.Holds at h
    rw [hbits] at h
    split at h
    · next hsigned =>
      obtain ⟨bits, hb⟩ : ∃ bits, 8 * k.size = bits + 1 := ⟨8 * k.size - 1, by cases k <;> rfl⟩
      rw [hb, Nat.add_sub_cancel] at h
      rw [if_pos hsigned, hb, twosComplement_emod h.1 h.2]
    · next hsigned =>
      rw [if_neg hsigned, Int.emod_eq_of_lt h.1 h.2, Int.toNat_of_nonneg h.1]
  rwa [hvalue] at hread

end Cursor

/-! ## Values by themselves -/

namespace Wire

open Cursor

variable {t : Table}

theorem integer_reads {k : IntType} {n : Int} (h : k.Holds n) :
    Reads (integer k) (k.encode n) (.integer k n) :=
  (uint_reads h).map (Value.integer k) fun c => integer_eq c k

theorem float_reads (x : FloatValue) : Reads (float x.type) x.encode (.float x) := by
  cases x with
  | f32 pattern =>
    have hlt : pattern.toNat < Nat.pow 256 FloatType.f32.size := pattern.toNat_lt
    have hread := (nat_reads hlt).map (fun n => Value.float (floatOfPattern .f32 n))
      fun c => float_eq c .f32
    rwa [floatOfPattern, UInt32.ofNat_toNat] at hread
  | f64 pattern =>
    have hlt : pattern.toNat < Nat.pow 256 FloatType.f64.size := pattern.toNat_lt
    have hread := (nat_reads hlt).map (fun n => Value.float (floatOfPattern .f64 n))
      fun c => float_eq c .f64
    rwa [floatOfPattern, UInt64.ofNat_toNat] at hread

theorem bool_reads (b : Bool) : Reads bool [if b then 1 else 0] (.bool b) := by
  intro rest offset
  rw [bool_eq, byte_reads]
  cases b <;> rfl

theorem char_reads (c : Char) : Reads char (toLittleEndian 4 c.toNat) (.char c) := by
  have hlt : c.toNat < Nat.pow 256 4 := c.val.toNat_lt
  have hvalid : c.toNat.isValidChar := c.valid
  intro rest offset
  rw [char_eq, nat_reads hlt]
  show (if c.toNat.isValidChar then _ else _) = _
  rw [if_pos hvalid, Char.ofNat_toNat]

theorem counted_reads {data : List UInt8} (h : data.length < Nat.pow 2 70) :
    Reads counted (encodeCounted data) data :=
  (uleb128_reads h).bind (read_reads data) counted_eq

theorem text_encode (s : String) : text (Text.Utf8.encode s) = .ok s := by
  rw [text, Text.Utf8.decode_encode]
  rfl

theorem str_reads {s : String} (h : (Text.Utf8.encode s).length < Nat.pow 2 70) :
    Reads str (encodeCounted (Text.Utf8.encode s)) (.str s) := by
  intro rest offset
  rw [str_eq, counted_reads h]
  show text (Text.Utf8.encode s) >>= _ = _
  rw [text_encode]
  rfl

theorem istr_reads {index : Nat} {e : Entry} (h : index < Nat.pow 2 70) (he : t.lookup index = .ok e) :
    Reads (istr t) (toUleb128 index) (.istr index e.format) := by
  intro rest offset
  rw [istr_eq, uleb128_reads h]
  show t.lookup index >>= _ = _
  rw [he]
  rfl

theorem bytes_reads {data : List UInt8} (h : data.length < Nat.pow 2 70) :
    Reads bytes (encodeCounted data) (.bytes data) :=
  (counted_reads h).map Value.bytes bytes_eq

theorem byteArray_reads (data : List UInt8) : Reads (byteArray data.length) data (.bytes data) :=
  (read_reads data).map Value.bytes fun c => byteArray_eq c data.length

/-- The bytes that a range touches are those of the number without its lower bytes. -/
theorem encode_bitRange (r : BitRange) (n : Nat) :
    r.encode n = toLittleEndian r.byteCount (n / Nat.pow 256 r.lowByte) := by
  have hhigh := r.high_lt_bits
  have hlow := r.low_lt_high
  have hbytes : r.backing.bits = 8 * (r.backing.bits / 8) := by cases r.backing <;> rfl
  have hcount : r.byteCount ≤ r.backing.bits / 8 - r.lowByte := by
    unfold BitRange.byteCount BitRange.lowByte
    omega
  rw [BitRange.encode, drop_toLittleEndian, take_toLittleEndian hcount]

theorem bitfield_reads {r : BitRange} {n : Nat} (h : n < Nat.pow 256 (r.lowByte + r.byteCount))
    (hlow : n % Nat.pow 256 r.lowByte = 0) :
    Reads (bitfield r) (r.encode n) (.bitfield r n) := by
  have hlt : n / Nat.pow 256 r.lowByte < Nat.pow 256 r.byteCount := by
    refine Nat.div_lt_of_lt_mul ?_
    rwa [show Nat.pow 256 (r.lowByte + r.byteCount) = _ from Nat.pow_add ..] at h
  have hread := (nat_reads hlt).map (fun n => Value.bitfield r (n * Nat.pow 256 r.lowByte))
    fun c => bitfield_eq c r
  rwa [Nat.div_mul_cancel (Nat.dvd_of_mod_eq_zero hlow), ← encode_bitRange] at hread

/-! ## Nested values -/

section
variable {nested : Nat → Cursor → Except Fault (Value × Cursor)} {levels : Nat}
  (hn : ∀ {index : Nat} {f : FormatString} {args : List Value}, t.freshFormat index = .ok f →
    List.Forall₂ (Conforms t) f.arguments args → Value.nestingAll args < levels →
    Reads (nested index) (encodeAll t f.arguments args) (.nested index args))

include hn

theorem elements_reads {index : Nat} {f : FormatString} {elements : List (List Value)}
    (hf : t.freshFormat index = .ok f)
    (h : ∀ args ∈ elements, List.Forall₂ (Conforms t) f.arguments args)
    (hlevels : Value.nestingAll (elements.map (.nested index)) ≤ levels) :
    Reads (Wire.elements (nested index) elements.length)
      (encodeElements t f.arguments (elements.map (.nested index))) (elements.map (.nested index)) := by
  induction elements with
  | nil =>
    rw [List.map_nil, encodeElements_nil]
    exact .pure []
  | cons args elements ih =>
    rw [List.map_cons, Value.nestingAll, Value.nesting] at hlevels
    rw [List.map_cons, encodeElements]
    have hhead := hn hf (h args List.mem_cons_self) (by omega)
    have htail := ih (fun args hargs => h args (List.mem_cons_of_mem _ hargs)) (by omega)
    exact hhead.cons htail fun _ => rfl

theorem slice_reads {index : Nat} {f : FormatString} {elements : List (List Value)}
    (hi : index < Nat.pow 2 70) (hne : elements ≠ []) (hlen : elements.length ≤ maxSliceLength)
    (hf : t.freshFormat index = .ok f)
    (h : ∀ args ∈ elements, List.Forall₂ (Conforms t) f.arguments args)
    (hlevels : Value.nestingAll (elements.map (.nested index)) ≤ levels) :
    Reads (slice nested elements.length)
      (toUleb128 index ++ encodeElements t f.arguments (elements.map (.nested index)))
      (.formatSlice (some index) (elements.map (.nested index))) := by
  have hpos : elements.length ≠ 0 := fun h0 => hne (List.eq_nil_of_length_eq_zero h0)
  have hall := (elements_reads hn hf h hlevels).map (Value.formatSlice (some index)) fun _ => rfl
  refine (uleb128_reads hi).bind (f := fun index c => Wire.elements (nested index) elements.length c >>=
    fun q => .ok (Value.formatSlice (some index) q.1, q.2)) hall fun c => ?_
  rw [slice, if_neg (by omega), if_neg hpos]

theorem argument_reads {type : ArgType} {v : Value} (h : Conforms t type v)
    (hlevels : v.nesting ≤ levels) : Reads (argument t nested type) (encode t type v) v := by
  cases h with
  | integer h => exact (integer_reads h).lift
  | float x => exact (float_reads x).lift
  | bool b => exact (bool_reads b).lift
  | char c => exact (char_reads c).lift
  | str h => exact (str_reads h).lift
  | istr h he => exact (istr_reads h he).lift
  | bytes h => exact (bytes_reads h).lift
  | byteArray data => exact (byteArray_reads data).lift
  | bitfield h hlow => exact (bitfield_reads h hlow).lift
  | format hi hf h =>
    rw [Value.nesting] at hlevels
    rw [encode, Table.slots_of_ok hf]
    exact (uleb128_reads hi).bind (hn hf h hlevels) fun c => indexed_eq c nested
  | noElements =>
    have hnone : Reads (slice nested 0) [] (.formatSlice none []) := fun _ _ => rfl
    have hread := (uleb128_reads (n := 0) (by decide)).bind hnone fun c => formatSlice_eq c nested
    rwa [List.append_nil] at hread
  | elements hi hne hlen hf h =>
    rw [Value.nesting] at hlevels
    rw [encode, List.length_map, Table.slots_of_ok hf, List.append_assoc]
    exact (uleb128_reads (Nat.lt_of_le_of_lt hlen (by decide))).bind
      (slice_reads hn hi hne hlen hf h hlevels) fun c => formatSlice_eq c nested
  | nested hf h =>
    rw [Value.nesting] at hlevels
    rw [encode, Table.slots_of_ok hf]
    exact hn hf h hlevels

theorem arguments_reads {types : List ArgType} {vs : List Value}
    (h : List.Forall₂ (Conforms t) types vs) (hlevels : Value.nestingAll vs ≤ levels) :
    Reads (arguments t nested types) (encodeAll t types vs) vs := by
  induction h with
  | nil =>
    rw [encodeAll_nil]
    exact .pure []
  | cons h _ ih =>
    rw [Value.nestingAll] at hlevels
    rw [encodeAll]
    exact (argument_reads hn h (by omega)).cons (ih (by omega)) fun _ => rfl

end

/-- A nested value is read back as long as its levels are allowed. -/
theorem nestedValue_reads {levels index : Nat} {f : FormatString} {args : List Value}
    (hf : t.freshFormat index = .ok f) (h : List.Forall₂ (Conforms t) f.arguments args)
    (hlevels : Value.nestingAll args < levels) :
    Reads (nestedValue t t.freshFormat levels index) (encodeAll t f.arguments args)
      (.nested index args) := by
  induction levels generalizing index f args with
  | zero => omega
  | succ levels ih =>
    exact (arguments_reads ih h (by omega)).map (Value.nested index) fun c => nestedValue_eq c hf levels

/-- Arguments are read back from their encoding, whatever follows it. -/
theorem decodeArguments_reads {depth : Nat} {f : FormatString} {vs : List Value}
    (h : List.Forall₂ (Conforms t) f.arguments vs) (hdepth : Value.nestingAll vs ≤ t.maxDepth - depth) :
    Reads (decodeArguments t t.freshFormat depth f) (encodeAll t f.arguments vs) vs :=
  arguments_reads nestedValue_reads h hdepth

end Wire

end DeferredLog
