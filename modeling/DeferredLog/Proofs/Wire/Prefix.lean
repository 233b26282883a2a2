import DeferredLog.Proofs.Wire.Readings

/-!
# What a reading depends on

Every reading of the wire, from a single byte to a frame, decides by the bytes that it takes and by no
others. `Prefixed` says so in two parts: a value stays the same whatever follows its bytes, and so
does a refusal, unless it is only that bytes are missing. The law is kept by everything that readings
are made of, so it holds of frames as soon as it holds of `Cursor.read`:

    formats raise decoding faults only → Prefixed (Frame.decode t formats)          (decode_prefixed)
-/

namespace DeferredLog

/-- A reading that decides by the bytes it takes. -/
structure Prefixed {α : Type} (r : Cursor → Except Fault (α × Cursor)) : Prop where
  /-- A value takes some first bytes, and is read from them whatever follows. -/
  value : ∀ {data : List UInt8} {offset : Nat} {a : α} {c : Cursor},
    r ⟨data, offset, 0⟩ = .ok (a, c) → ∃ used rest, data = used ++ rest ∧
      ∀ suffix, r ⟨used ++ suffix, offset, 0⟩ = .ok (a, ⟨suffix, offset + used.length, 0⟩)
  /-- Bytes are missing, or the bytes are refused whatever follows. -/
  refusal : ∀ {data : List UInt8} {offset : Nat} {e : Fault},
    r ⟨data, offset, 0⟩ = .error e → e.kind = .starved ∨ e.isDecodingFault = true ∧
      ∀ suffix, r ⟨data ++ suffix, offset, 0⟩ = .error e

namespace Prefixed

variable {α β : Type} {r : Cursor → Except Fault (α × Cursor)}
  {f : α → Cursor → Except Fault (β × Cursor)} {s : Cursor → Except Fault (β × Cursor)}

theorem pure (a : α) : Prefixed fun c => .ok (a, c) where
  value := by
    intro data offset b c h
    obtain ⟨rfl, -⟩ := Prod.mk.inj (Except.ok.inj h)
    exact ⟨[], data, rfl, fun suffix => rfl⟩
  refusal := by
    intro data offset e h
    cases h

theorem refuse (e : Fault) (he : e.isDecodingFault = true) :
    Prefixed fun _ => (.error e : Except Fault (α × Cursor)) where
  value := by
    intro data offset b c h
    cases h
  refusal := by
    intro data offset e' h
    obtain rfl := Except.error.inj h
    exact .inr ⟨he, fun _ => rfl⟩

/-- A reading that asks for something first that does not depend on the bytes. -/
theorem found {γ : Type} {x : Except Fault γ} {g : γ → Cursor → Except Fault (α × Cursor)}
    (hx : ∀ e, x = .error e → e.isDecodingFault = true) (hg : ∀ a, Prefixed (g a)) :
    Prefixed fun c => x >>= fun a => g a c := by
  cases x with
  | ok a => exact hg a
  | error e => exact refuse e (hx e rfl)

theorem lift (h : Prefixed r) : Prefixed fun c => Fault.lift (r c) := by
  simpa only [Fault.lift_eq_self] using h

theorem ite {p : Prop} [Decidable p] {r' : Cursor → Except Fault (α × Cursor)} (h : Prefixed r)
    (h' : Prefixed r') : Prefixed fun c => if p then r c else r' c := by
  by_cases hp : p
  · simpa only [hp, if_true] using h
  · simpa only [hp, if_false] using h'

/-- One reading after another, the second one as the first value asks for it. -/
theorem bind (hr : Prefixed r) (hf : ∀ a, Prefixed (f a))
    (hs : ∀ c, s c = r c >>= fun p => f p.1 p.2) : Prefixed s where
  value := by
    intro data offset b c h
    rw [hs] at h
    cases h₁ : r ⟨data, offset, 0⟩ with
    | error e =>
      rw [h₁] at h
      cases h
    | ok p =>
      obtain ⟨a, c₁⟩ := p
      obtain ⟨used₁, rest₁, rfl, hv₁⟩ := hr.value h₁
      rw [hv₁] at h
      obtain ⟨used₂, rest₂, rfl, hv₂⟩ := (hf a).value h
      refine ⟨used₁ ++ used₂, rest₂, (List.append_assoc ..).symm, fun suffix => ?_⟩
      rw [hs, List.append_assoc, hv₁, List.length_append, ← Nat.add_assoc]
      exact hv₂ suffix
  refusal := by
    intro data offset e h
    rw [hs] at h
    cases h₁ : r ⟨data, offset, 0⟩ with
    | error e₁ =>
      rw [h₁] at h
      obtain rfl := Except.error.inj h
      refine (hr.refusal h₁).imp_right fun ⟨hk, hall⟩ => ⟨hk, fun suffix => ?_⟩
      rw [hs, hall]
      rfl
    | ok p =>
      obtain ⟨a, c₁⟩ := p
      obtain ⟨used, rest, rfl, hv⟩ := hr.value h₁
      rw [hv] at h
      refine ((hf a).refusal h).imp_right fun ⟨hk, hall⟩ => ⟨hk, fun suffix => ?_⟩
      rw [hs, List.append_assoc, hv]
      exact hall suffix

end Prefixed

/-! ## Numbers -/

namespace Cursor

theorem read_prefixed (count : Nat) : Prefixed (read count) where
  value := by
    intro data offset a c h
    simp only [read, Nat.add_zero, advance] at h
    split at h
    · cases h
    · next hlen =>
      obtain ⟨rfl, -⟩ := Prod.mk.inj (Except.ok.inj h)
      rw [List.length_take] at hlen
      have hused : (data.take count).length = count := by rw [List.length_take]; omega
      refine ⟨data.take count, data.drop count, (List.take_append_drop ..).symm, fun suffix => ?_⟩
      simp only [read, Nat.add_zero, advance, List.take_left' hused, List.drop_left' hused, hused,
        Nat.lt_irrefl, if_false]
  refusal := by
    intro data offset e h
    simp only [read] at h
    split at h
    · rw [← Except.error.inj h]
      exact .inl rfl
    · cases h

theorem byte_prefixed : Prefixed byte :=
  .bind (read_prefixed 1) (fun bytes => .pure (bytes.headD 0)) byte_eq

theorem nat_prefixed (size : Nat) : Prefixed (nat size) :=
  .bind (read_prefixed size) (fun bytes => .pure (littleEndian bytes)) fun c => c.nat_eq size

theorem uint_prefixed (size : Nat) (signed : Bool) : Prefixed (uint size signed) :=
  .bind (nat_prefixed size) (fun n => .pure (if signed then twosComplement (8 * size) n else n))
    fun c => c.uint_eq size signed

theorem uleb128Within_prefixed (limit : Nat) : Prefixed (uleb128Within limit) := by
  induction limit with
  | zero => exact .refuse (.value .longNumber) rfl
  | succ limit ih =>
    have hafter (b : UInt8) : Prefixed (uleb128After limit b) :=
      .ite (.pure b.toNat) (.bind ih (fun high => .pure (b.toNat % 128 + 128 * high)) fun _ => rfl)
    exact .bind byte_prefixed hafter fun c => c.uleb128Within_eq limit

theorem uleb128_prefixed : Prefixed uleb128 := uleb128Within_prefixed maxNumberBytes

end Cursor

/-! ## Arguments -/

namespace Wire

open Cursor

theorem integer_prefixed (k : IntType) : Prefixed (integer k) :=
  .bind (uint_prefixed k.size k.signed) (fun n => .pure (.integer k n)) fun c => integer_eq c k

theorem float_prefixed (k : FloatType) : Prefixed (float k) :=
  .bind (nat_prefixed k.size) (fun n => .pure (.float (floatOfPattern k n))) fun c => float_eq c k

theorem bool_prefixed : Prefixed bool :=
  .bind byte_prefixed (fun b => .ite (p := 1 < b.toNat) (.refuse (.value (.badBool b.toNat)) rfl)
    (.pure (.bool (b = 1)))) bool_eq

theorem char_prefixed : Prefixed char :=
  .bind (nat_prefixed 4) (fun code => .ite (p := code.isValidChar) (.pure (.char (Char.ofNat code)))
    (.refuse (.value (.badChar code)) rfl)) char_eq

theorem counted_prefixed : Prefixed counted :=
  .bind uleb128_prefixed read_prefixed counted_eq

theorem isDecodingFault_of_text {raw : List UInt8} {e : Fault} (h : text raw = .error e) :
    e.isDecodingFault = true := by
  unfold text at h
  cases hd : Text.Utf8.decode raw with
  | ok s =>
    rw [hd] at h
    cases h
  | error fault =>
    rw [hd] at h
    rw [← Except.error.inj h]
    rfl

theorem str_prefixed : Prefixed str :=
  .bind counted_prefixed (fun raw => .found (x := text raw) (fun _ => isDecodingFault_of_text)
    fun s => .pure (.str s)) str_eq

theorem istr_prefixed (t : Table) : Prefixed (istr t) :=
  .bind uleb128_prefixed (fun index => .found (x := t.lookup index)
    (fun _ => Table.isDecodingFault_of_lookup) fun e => .pure (.istr index e.format))
    fun c => istr_eq c t

theorem bytes_prefixed : Prefixed bytes :=
  .bind counted_prefixed (fun raw => .pure (.bytes raw)) bytes_eq

theorem byteArray_prefixed (length : Nat) : Prefixed (byteArray length) :=
  .bind (read_prefixed length) (fun raw => .pure (.bytes raw)) fun c => byteArray_eq c length

theorem bitfield_prefixed (r : BitRange) : Prefixed (bitfield r) :=
  .bind (nat_prefixed r.byteCount) (fun n => .pure (.bitfield r (n * Nat.pow 256 r.lowByte)))
    fun c => bitfield_eq c r

/-! ## Nested values -/

theorem elements_prefixed {r : Cursor → Except Fault (Value × Cursor)} (hr : Prefixed r) (count : Nat) :
    Prefixed (elements r count) := by
  induction count with
  | zero => exact .pure []
  | succ count ih =>
    exact .bind hr (fun v => .bind ih (fun vs => .pure (v :: vs)) fun _ => rfl) fun _ => rfl

section
variable {nested : Nat → Cursor → Except Fault (Value × Cursor)} (hn : ∀ index, Prefixed (nested index))

include hn

theorem slice_prefixed (count : Nat) : Prefixed (slice nested count) := by
  have hall (index : Nat) : Prefixed fun c =>
      elements (nested index) count c >>= fun q => .ok (Value.formatSlice (some index) q.1, q.2) :=
    .bind (elements_prefixed (hn index) count) (fun vs => .pure (.formatSlice (some index) vs))
      fun _ => rfl
  exact .ite (.refuse (.value (.longSlice count)) rfl)
    (.ite (.pure (Value.formatSlice none [])) (.bind uleb128_prefixed hall fun _ => rfl))

theorem argument_prefixed (t : Table) (type : ArgType) : Prefixed (argument t nested type) := by
  cases type with
  | integer k => exact .lift (integer_prefixed k)
  | float k => exact .lift (float_prefixed k)
  | bool => exact .lift bool_prefixed
  | char => exact .lift char_prefixed
  | str => exact .lift str_prefixed
  | istr => exact .lift (istr_prefixed t)
  | bytes => exact .lift bytes_prefixed
  | byteArray n => exact .lift (byteArray_prefixed n)
  | bitfield r => exact .lift (bitfield_prefixed r)
  | format => exact .bind uleb128_prefixed hn fun c => indexed_eq c nested
  | formatSlice => exact .bind uleb128_prefixed (slice_prefixed hn) fun c => formatSlice_eq c nested
  | nested tag => exact hn tag.index

theorem arguments_prefixed (t : Table) (types : List ArgType) : Prefixed (arguments t nested types) := by
  induction types with
  | nil => exact .pure []
  | cons type types ih =>
    exact .bind (argument_prefixed hn t type)
      (fun v => .bind ih (fun vs => .pure (v :: vs)) fun _ => rfl) fun _ => rfl

end

section
variable {formats : Nat → Except Fault FormatString}
  (hf : ∀ index e, formats index = .error e → e.isDecodingFault = true)

include hf

theorem nestedValue_prefixed (t : Table) (levels index : Nat) :
    Prefixed (nestedValue t formats levels index) := by
  induction levels generalizing index with
  | zero => exact .refuse (.value (.tooDeep t.maxDepth)) rfl
  | succ levels ih =>
    exact .found (hf index) fun f =>
      .bind (arguments_prefixed ih t f.arguments) (fun args => .pure (.nested index args)) fun _ => rfl

theorem decodeArguments_prefixed (t : Table) (depth : Nat) (f : FormatString) :
    Prefixed (decodeArguments t formats depth f) :=
  arguments_prefixed (nestedValue_prefixed hf t _) t f.arguments

end

end Wire

/-! ## Frames -/

namespace Frame

theorem isDecodingFault_of_statement {t : Table} {index : Nat} {e : Fault}
    (h : statement t index = .error e) : e.isDecodingFault = true := by
  unfold statement at h
  cases hl : t.lookup index with
  | error e' =>
    rw [hl] at h
    obtain rfl := Except.error.inj h
    exact Table.isDecodingFault_of_lookup hl
  | ok entry =>
    rw [hl] at h
    dsimp only at h
    split at h
    · cases h
    · rw [← Except.error.inj h]
      rfl

variable {formats : Nat → Except Fault FormatString}
  (hf : ∀ index e, formats index = .error e → e.isDecodingFault = true)

include hf

theorem entryArguments_prefixed (t : Table) (index : Nat) : Prefixed (entryArguments t formats index) :=
  .found (hf index) fun f => Wire.decodeArguments_prefixed hf t 0 f

theorem decodeTimestamp_prefixed (t : Table) : Prefixed (decodeTimestamp t formats) := by
  unfold decodeTimestamp
  cases t.timestamp with
  | none => exact .pure []
  | some index => exact entryArguments_prefixed hf t index

theorem decodeBody_prefixed (t : Table) (index : Nat) : Prefixed (decodeBody t formats index) := by
  have hargs (entry : Entry) (level : Level) (timestamp : List Value) : Prefixed fun c =>
      entryArguments t formats index c >>= fun q => .ok (Frame.mk entry level timestamp q.1, q.2) :=
    .bind (entryArguments_prefixed hf t index) (fun args => .pure ⟨entry, level, timestamp, args⟩)
      fun _ => rfl
  rw [show decodeBody t formats index = _ from funext decodeBody_eq]
  exact .found (fun _ => isDecodingFault_of_statement) fun s =>
    .bind (decodeTimestamp_prefixed hf t) (hargs s.1 s.2) fun _ => rfl

theorem decode_prefixed (t : Table) : Prefixed (decode t formats) :=
  .bind Cursor.uleb128_prefixed (decodeBody_prefixed hf t) decode_eq

end Frame

end DeferredLog
