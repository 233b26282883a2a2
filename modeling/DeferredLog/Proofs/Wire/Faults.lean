import DeferredLog.Proofs.Wire.Readings

/-!
# What readings raise

Bytes can be too few, name an index that is not in the table, or be no value of their type. All other
faults of decoding are those of the formats that it asks for, at whatever depth and by whatever argument
it comes to them:

    Frame.decode t formats c = .error e → e.IsDataFault ∨ ∃ index, formats index = .error e
                                                                                   (decode_raises)
-/

namespace DeferredLog

/-- Faults that the bytes of a frame are to blame for, and no format. -/
def Fault.IsDataFault (e : Fault) : Prop :=
  e.kind = .starved ∨ e.kind = .unknownIndex ∨ e.kind = .malformedValue

/-- All faults that a reading can raise are of one sort. -/
def Raises {α : Type} (r : Cursor → Except Fault (α × Cursor)) (E : Fault → Prop) : Prop :=
  ∀ c e, r c = .error e → E e

namespace Raises

variable {α β : Type} {E : Fault → Prop} {r : Cursor → Except Fault (α × Cursor)}
  {f : α → Cursor → Except Fault (β × Cursor)} {s : Cursor → Except Fault (β × Cursor)}

theorem pure (a : α) : Raises (fun c => .ok (a, c)) E := by
  intro c e h
  cases h

theorem refuse {e : Fault} (he : E e) : Raises (fun _ => (.error e : Except Fault (α × Cursor))) E := by
  intro c e' h
  exact Except.error.inj h ▸ he

theorem imp {E' : Fault → Prop} (hr : Raises r E') (h : ∀ e, E' e → E e) : Raises r E :=
  fun c e hc => h e (hr c e hc)

theorem lift (hr : Raises r E) : Raises (fun c => Fault.lift (r c)) E := by
  simpa only [Fault.lift_eq_self] using hr

theorem ite {p : Prop} [Decidable p] {r' : Cursor → Except Fault (α × Cursor)} (hr : Raises r E)
    (hr' : Raises r' E) : Raises (fun c => if p then r c else r' c) E := by
  by_cases hp : p
  · simpa only [hp, if_true] using hr
  · simpa only [hp, if_false] using hr'

/-- One reading after another, the second one as the first value asks for it. -/
theorem bind (hr : Raises r E) (hf : ∀ a, Raises (f a) E)
    (hs : ∀ c, s c = r c >>= fun p => f p.1 p.2) : Raises s E := by
  intro c e h
  rw [hs] at h
  cases hrc : r c with
  | error e' =>
    rw [hrc] at h
    exact Except.error.inj h ▸ hr c e' hrc
  | ok p =>
    rw [hrc] at h
    exact hf p.1 p.2 e h

/-- A reading whose value is converted. -/
theorem map (hr : Raises r E) (g : α → β) (hs : ∀ c, s c = r c >>= fun p => .ok (g p.1, p.2)) :
    Raises s E :=
  hr.bind (fun a => .pure (g a)) hs

/-- A reading after something that is not a reading. -/
theorem found {γ : Type} {x : Except Fault γ} {g : γ → Cursor → Except Fault (β × Cursor)}
    (hx : ∀ e, x = .error e → E e) (hg : ∀ a, Raises (g a) E) :
    Raises (fun c => x >>= fun a => g a c) E := by
  cases x with
  | ok a => exact hg a
  | error e => exact refuse (hx e rfl)

end Raises

/-! ## Numbers -/

theorem Fault.IsDataFault.value (cause : ValueFault) : (Fault.value cause).IsDataFault := .inr (.inr rfl)

namespace Cursor

theorem read_raises (count : Nat) : Raises (read count) Fault.IsDataFault := by
  intro c e h
  unfold read at h
  dsimp only at h
  split at h
  · exact Except.error.inj h ▸ .inl rfl
  · cases h

theorem byte_raises : Raises byte Fault.IsDataFault := 
  (read_raises 1).map (fun bytes => bytes.headD 0) byte_eq

theorem nat_raises (size : Nat) : Raises (nat size) Fault.IsDataFault :=
  (read_raises size).map littleEndian fun c => c.nat_eq size

theorem uint_raises (size : Nat) (signed : Bool) : Raises (uint size signed) Fault.IsDataFault :=
  (nat_raises size).map (fun n => if signed then twosComplement (8 * size) n else n)
    fun c => c.uint_eq size signed

theorem uleb128Within_raises (limit : Nat) : Raises (uleb128Within limit) Fault.IsDataFault := by
  induction limit with
  | zero => exact .refuse (.value .longNumber)
  | succ limit ih =>
    have hafter : ∀ b : UInt8, Raises (uleb128After limit b) Fault.IsDataFault := fun b =>
      .ite (.pure b.toNat) (ih.map (fun high => b.toNat % 128 + 128 * high) fun _ => rfl)
    exact byte_raises.bind hafter fun c => c.uleb128Within_eq limit

theorem uleb128_raises : Raises uleb128 Fault.IsDataFault := uleb128Within_raises maxNumberBytes

end Cursor

/-! ## Values by themselves -/

namespace Wire

open Cursor

variable {t : Table}

theorem integer_raises (k : IntType) : Raises (integer k) Fault.IsDataFault :=
  (uint_raises k.size k.signed).map (Value.integer k) fun c => integer_eq c k

theorem float_raises (k : FloatType) : Raises (float k) Fault.IsDataFault :=
  (nat_raises k.size).map (fun n => Value.float (floatOfPattern k n)) fun c => float_eq c k

theorem bool_raises : Raises bool Fault.IsDataFault :=
  byte_raises.bind (fun b => .ite (p := 1 < b.toNat) (.refuse (.value (.badBool b.toNat)))
    (.pure (.bool (b = 1)))) bool_eq

theorem char_raises : Raises char Fault.IsDataFault :=
  (nat_raises 4).bind (fun code => .ite (p := code.isValidChar) (.pure (.char (Char.ofNat code)))
    (.refuse (.value (.badChar code)))) char_eq

theorem counted_raises : Raises counted Fault.IsDataFault :=
  uleb128_raises.bind read_raises counted_eq

theorem isDataFault_of_text {raw : List UInt8} {e : Fault} (h : text raw = .error e) :
    e.IsDataFault := by
  unfold text at h
  cases hd : Text.Utf8.decode raw with
  | ok s =>
    rw [hd] at h
    cases h
  | error fault =>
    rw [hd] at h
    exact Except.error.inj h ▸ .value (.badText fault)

theorem str_raises : Raises str Fault.IsDataFault :=
  counted_raises.bind (fun raw => .found (x := text raw) (fun _ => isDataFault_of_text)
    fun s => .pure (.str s)) str_eq

theorem isDataFault_of_lookup {index : Int} {e : Fault} (h : t.lookup index = .error e) :
    e.IsDataFault := by
  have hunknown : e = .unknownIndex index := by
    unfold Table.lookup at h
    split at h
    · split at h
      · cases h
      · exact (Except.error.inj h).symm
    · exact (Except.error.inj h).symm
  exact hunknown ▸ .inr (.inl rfl)

theorem istr_raises (t : Table) : Raises (istr t) Fault.IsDataFault :=
  uleb128_raises.bind (fun index => .found (x := t.lookup index) (fun _ => isDataFault_of_lookup)
    fun e => .pure (.istr index e.format)) fun c => istr_eq c t

theorem bytes_raises : Raises bytes Fault.IsDataFault := counted_raises.map Value.bytes bytes_eq

theorem byteArray_raises (length : Nat) : Raises (byteArray length) Fault.IsDataFault :=
  (read_raises length).map Value.bytes fun c => byteArray_eq c length

theorem bitfield_raises (r : BitRange) : Raises (bitfield r) Fault.IsDataFault :=
  (nat_raises r.byteCount).map (fun n => Value.bitfield r (n * Nat.pow 256 r.lowByte)) fun c => bitfield_eq c r

/-! ## Nested values -/

section
variable {E : Fault → Prop} {nested : Nat → Cursor → Except Fault (Value × Cursor)}
  (hE : ∀ e : Fault, e.IsDataFault → E e) (hn : ∀ index, Raises (nested index) E)

theorem elements_raises {r : Cursor → Except Fault (Value × Cursor)} (hr : Raises r E) (count : Nat) :
    Raises (elements r count) E := by
  induction count with
  | zero => exact .pure []
  | succ count ih => exact hr.bind (fun v => ih.map (v :: ·) fun _ => rfl) fun _ => rfl

include hE hn

theorem slice_raises (count : Nat) : Raises (slice nested count) E := by
  have hall : ∀ index, Raises (fun c => elements (nested index) count c >>= fun q =>
      .ok (Value.formatSlice (some index) q.1, q.2)) E := fun index =>
    (elements_raises (hn index) count).map (Value.formatSlice (some index)) fun _ => rfl
  exact .ite (.refuse (hE _ (.value (.longSlice count))))
    (.ite (.pure (Value.formatSlice none [])) ((uleb128_raises.imp hE).bind hall fun _ => rfl))

theorem argument_raises (t : Table) (type : ArgType) : Raises (argument t nested type) E := by
  cases type with
  | integer k => exact ((integer_raises k).imp hE).lift
  | float k => exact ((float_raises k).imp hE).lift
  | bool => exact (bool_raises.imp hE).lift
  | char => exact (char_raises.imp hE).lift
  | str => exact (str_raises.imp hE).lift
  | istr => exact ((istr_raises t).imp hE).lift
  | bytes => exact (bytes_raises.imp hE).lift
  | byteArray n => exact ((byteArray_raises n).imp hE).lift
  | bitfield r => exact ((bitfield_raises r).imp hE).lift
  | format => exact (uleb128_raises.imp hE).bind hn fun c => indexed_eq c nested
  | formatSlice =>
    exact (uleb128_raises.imp hE).bind (slice_raises hE hn) fun c => formatSlice_eq c nested
  | nested tag => exact hn tag.index

theorem arguments_raises (t : Table) (types : List ArgType) : Raises (arguments t nested types) E := by
  induction types with
  | nil => exact .pure []
  | cons type types ih =>
    exact (argument_raises hE hn t type).bind (fun v => ih.map (v :: ·) fun _ => rfl) fun _ => rfl

end

end Wire

/-! ## Whatever asks for formats -/

/-- Faults of the bytes, and those of a source of formats. -/
def Fault.IsOf (formats : Nat → Except Fault FormatString) (e : Fault) : Prop :=
  e.IsDataFault ∨ ∃ index, formats index = .error e

variable {t : Table} {formats : Nat → Except Fault FormatString}

namespace Wire

theorem nestedValue_raises (t : Table) (formats : Nat → Except Fault FormatString)
    (levels index : Nat) : Raises (nestedValue t formats levels index) (Fault.IsOf formats) := by
  induction levels generalizing index with
  | zero => exact .refuse (.inl (.value (.tooDeep t.maxDepth)))
  | succ levels ih =>
    refine .found (x := formats index) (fun e he => .inr ⟨index, he⟩) fun f => ?_
    exact (arguments_raises (fun _ => .inl) ih t f.arguments).map (Value.nested index) fun _ => rfl

theorem decodeArguments_raises (t : Table) (formats : Nat → Except Fault FormatString) (depth : Nat)
    (f : FormatString) : Raises (decodeArguments t formats depth f) (Fault.IsOf formats) :=
  arguments_raises (fun _ => .inl) (nestedValue_raises t formats _) t f.arguments

end Wire

namespace Frame

theorem isDataFault_of_statement {index : Nat} {e : Fault} (h : statement t index = .error e) :
    e.IsDataFault := by
  unfold statement at h
  cases hl : t.lookup index with
  | error e' =>
    rw [hl] at h
    exact Except.error.inj h ▸ Wire.isDataFault_of_lookup hl
  | ok entry =>
    rw [hl] at h
    dsimp only at h
    split at h
    · cases h
    · exact Except.error.inj h ▸ .inr (.inl rfl)

theorem entryArguments_raises (t : Table) (formats : Nat → Except Fault FormatString) (index : Nat) :
    Raises (entryArguments t formats index) (Fault.IsOf formats) :=
  .found (fun _ he => .inr ⟨index, he⟩) fun f => Wire.decodeArguments_raises t formats 0 f

theorem decodeTimestamp_raises (t : Table) (formats : Nat → Except Fault FormatString) :
    Raises (decodeTimestamp t formats) (Fault.IsOf formats) := by
  unfold decodeTimestamp
  cases t.timestamp with
  | none => exact .pure []
  | some index => exact entryArguments_raises t formats index

theorem decodeBody_raises (t : Table) (formats : Nat → Except Fault FormatString) (index : Nat) :
    Raises (decodeBody t formats index) (Fault.IsOf formats) := by
  have hargs : ∀ (s : Entry × Level) (timestamp : List Value), Raises (fun c =>
      entryArguments t formats index c >>= fun q => .ok (Frame.mk s.1 s.2 timestamp q.1, q.2))
      (Fault.IsOf formats) := fun s timestamp =>
    (entryArguments_raises t formats index).map (Frame.mk s.1 s.2 timestamp) fun _ => rfl
  rw [show decodeBody t formats index = _ from funext decodeBody_eq]
  exact .found (fun _ he => .inl (isDataFault_of_statement he)) fun s =>
    (decodeTimestamp_raises t formats).bind (hargs s) fun _ => rfl

/-- Decoding a frame raises faults of the bytes and of the formats that it asks for. -/
theorem decode_raises (t : Table) (formats : Nat → Except Fault FormatString) :
    Raises (decode t formats) (Fault.IsOf formats) :=
  (Cursor.uleb128_raises.imp fun _ => .inl).bind (decodeBody_raises t formats) decode_eq

end Frame

end DeferredLog
