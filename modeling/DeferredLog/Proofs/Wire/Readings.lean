import DeferredLog.Frame.Basic
import DeferredLog.Proofs.Table.Memory

/-!
# Readings taken apart

Every reading of the wire is one reading after another, the second one as the first value asks for it.
The equations here say so for each of them, once for all properties that are proved along these lines:
that a reading decides by its own bytes, and that it undoes the encoding.
-/

namespace DeferredLog

/-! ## Numbers -/

namespace Cursor

variable (c : Cursor)

theorem byte_eq : c.byte = c.read 1 >>= fun p => .ok (p.1.headD 0, p.2) := by
  unfold byte
  cases c.read 1 <;> rfl

theorem nat_eq (size : Nat) : c.nat size = c.read size >>= fun p => .ok (littleEndian p.1, p.2) := by
  unfold nat
  cases c.read size <;> rfl

theorem uint_eq (size : Nat) (signed : Bool) :
    c.uint size signed = c.nat size >>= fun p =>
      .ok (if signed then twosComplement (8 * size) p.1 else p.1, p.2) := by
  unfold uint
  cases c.nat size <;> rfl

/-- What follows the first byte of a number. -/
def uleb128After (limit : Nat) (b : UInt8) (c : Cursor) : Except Fault (Nat × Cursor) :=
  if b.toNat < 128 then .ok (b.toNat, c)
  else c.uleb128Within limit >>= fun p => .ok (b.toNat % 128 + 128 * p.1, p.2)

theorem uleb128Within_eq (limit : Nat) :
    c.uleb128Within (limit + 1) = c.byte >>= fun p => uleb128After limit p.1 p.2 := by
  rw [uleb128Within]
  cases c.byte with
  | error e => rfl
  | ok p =>
    show _ = uleb128After limit p.1 p.2
    unfold uleb128After
    dsimp only
    split
    · rfl
    · cases p.2.uleb128Within limit <;> rfl

end Cursor

/-! ## Values by themselves -/

namespace Wire

variable (c : Cursor)

theorem integer_eq (k : IntType) :
    integer k c = c.uint k.size k.signed >>= fun p => .ok (.integer k p.1, p.2) := by
  unfold integer
  cases c.uint k.size k.signed <;> rfl

/-- The number of a pattern. -/
def floatOfPattern : FloatType → Nat → FloatValue
  | .f32, n => .f32 (UInt32.ofNat n)
  | .f64, n => .f64 (UInt64.ofNat n)

theorem float_eq (k : FloatType) :
    float k c = c.nat k.size >>= fun p => .ok (.float (floatOfPattern k p.1), p.2) := by
  unfold float
  cases c.nat k.size with
  | error e => rfl
  | ok p => cases k <;> rfl

theorem bool_eq :
    bool c = c.byte >>= fun p =>
      if 1 < p.1.toNat then .error (.value (.badBool p.1.toNat)) else .ok (.bool (p.1 = 1), p.2) := by
  unfold bool
  cases c.byte <;> rfl

theorem char_eq :
    char c = c.nat 4 >>= fun p =>
      if p.1.isValidChar then .ok (.char (Char.ofNat p.1), p.2) else .error (.value (.badChar p.1)) := by
  unfold char
  cases c.nat 4 <;> rfl

theorem counted_eq : counted c = c.uleb128 >>= fun p => p.2.read p.1 := by
  unfold counted
  cases c.uleb128 <;> rfl

/-- The text in some bytes. -/
def text (raw : List UInt8) : Except Fault String :=
  (Text.Utf8.decode raw).mapError fun fault => .value (.badText fault)

theorem str_eq : str c = counted c >>= fun p => text p.1 >>= fun s => .ok (.str s, p.2) := by
  unfold str text
  cases counted c with
  | error e => rfl
  | ok p =>
    show _ = (Text.Utf8.decode p.1).mapError _ >>= _
    dsimp only
    cases Text.Utf8.decode p.1 <;> rfl

theorem istr_eq (t : Table) :
    istr t c = c.uleb128 >>= fun p => t.lookup p.1 >>= fun e => .ok (.istr p.1 e.format, p.2) := by
  unfold istr
  cases c.uleb128 with
  | error e => rfl
  | ok p =>
    show _ = t.lookup p.1 >>= _
    dsimp only
    cases t.lookup p.1 <;> rfl

theorem bytes_eq : bytes c = counted c >>= fun p => .ok (.bytes p.1, p.2) := by
  unfold bytes
  cases counted c <;> rfl

theorem byteArray_eq (length : Nat) :
    byteArray length c = c.read length >>= fun p => .ok (.bytes p.1, p.2) := by
  unfold byteArray
  cases c.read length <;> rfl

theorem bitfield_eq (r : BitRange) :
    bitfield r c = c.nat r.byteCount >>= fun p =>
      .ok (.bitfield r (p.1 * Nat.pow 256 r.lowByte), p.2) := by
  unfold bitfield
  cases c.nat r.byteCount <;> rfl

/-! ## Nested values -/

variable {t : Table} (nested : Nat → Cursor → Except Fault (Value × Cursor))

theorem indexed_eq : indexed nested c = c.uleb128 >>= fun p => nested p.1 p.2 := by
  simp only [indexed, Fault.lift_eq_self]

/-- What follows the count of a format slice. -/
def slice (count : Nat) (c : Cursor) : Except Fault (Value × Cursor) :=
  if maxSliceLength < count then .error (.value (.longSlice count))
  else if count = 0 then .ok (.formatSlice none [], c)
  else c.uleb128 >>= fun p => elements (nested p.1) count p.2 >>= fun q =>
    .ok (.formatSlice (some p.1) q.1, q.2)

theorem formatSlice_eq : formatSlice nested c = c.uleb128 >>= fun p => slice nested p.1 p.2 := by
  simp only [formatSlice, Fault.lift_eq_self]
  rfl

theorem nestedValue_eq {formats : Nat → Except Fault FormatString} {index : Nat} {f : FormatString}
    (hf : formats index = .ok f) (levels : Nat) :
    nestedValue t formats (levels + 1) index c =
      arguments t (nestedValue t formats levels) f.arguments c >>= fun p =>
        .ok (.nested index p.1, p.2) := by
  rw [nestedValue, hf]
  rfl

end Wire

/-! ## Frames -/

namespace Frame

variable {t : Table} {formats : Nat → Except Fault FormatString} {index : Nat} (c : Cursor)

/-- Reading the arguments of the entry at an index. -/
def entryArguments (t : Table) (formats : Nat → Except Fault FormatString) (index : Nat) (c : Cursor) :
    Except Fault (List Value × Cursor) :=
  formats index >>= fun f => Wire.decodeArguments t formats 0 f c

theorem entryArguments_eq {f : FormatString} (hf : formats index = .ok f) :
    entryArguments t formats index c = Wire.decodeArguments t formats 0 f c := by
  rw [entryArguments, hf]
  rfl

theorem decodeTimestamp_of_none (h : t.timestamp = none) :
    decodeTimestamp t formats = fun c => .ok ([], c) := by
  unfold decodeTimestamp
  rw [h]
  rfl

theorem decodeTimestamp_of_some (h : t.timestamp = some index) :
    decodeTimestamp t formats = entryArguments t formats index := by
  unfold decodeTimestamp
  rw [h]
  rfl

theorem decodeBody_eq :
    decodeBody t formats index c = statement t index >>= fun s =>
      decodeTimestamp t formats c >>= fun p => entryArguments t formats index p.2 >>= fun q =>
        .ok (⟨s.1, s.2, p.1, q.1⟩, q.2) := by
  simp only [decodeBody, entryArguments, Fault.lift_eq_self]
  refine bind_congr fun s => bind_congr fun p => ?_
  cases formats index <;> rfl

theorem decode_eq : decode t formats c = c.uleb128 >>= fun p => decodeBody t formats p.1 p.2 := by
  simp only [decode, Fault.lift_eq_self]

end Frame

end DeferredLog
