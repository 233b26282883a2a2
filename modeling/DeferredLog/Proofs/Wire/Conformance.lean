import DeferredLog.Proofs.Frame.RoundTrip
import DeferredLog.Proofs.Text.Utf8

/-!
# What is decoded conforms

Every value that is read under a type is one that can travel under it: it has the type's variant and is
in its range, the formats of nested values can be had, and their arguments conform in turn. No value is
nested deeper than allowed.

    t.decodeFresh data = .ok (frame, n) → frame.Conforms t                      (conforms_of_decodeFresh)
-/

namespace DeferredLog

/-! ## What readings return -/

/-- All values that a reading can return have a property. -/
def Returns {α : Type} (r : Cursor → Except Fault (α × Cursor)) (P : α → Prop) : Prop :=
  ∀ c a c', r c = .ok (a, c') → P a

namespace Returns

variable {α β : Type} {r : Cursor → Except Fault (α × Cursor)} {P : α → Prop} {Q : β → Prop}
  {f : α → Cursor → Except Fault (β × Cursor)} {s : Cursor → Except Fault (β × Cursor)}

theorem imp (hr : Returns r P) {P' : α → Prop} (h : ∀ a, P a → P' a) : Returns r P' :=
  fun c a c' hc => h a (hr c a c' hc)

theorem lift (hr : Returns r P) : Returns (fun c => Fault.lift (r c)) P := by
  simpa only [Fault.lift_eq_self] using hr

/-- One reading after another, the second one as the first value asks for it. -/
theorem bind (hr : Returns r P) (hf : ∀ a, P a → Returns (f a) Q)
    (hs : ∀ c, s c = r c >>= fun p => f p.1 p.2) : Returns s Q := by
  intro c b c' h
  rw [hs] at h
  cases hrc : r c with
  | error e =>
    rw [hrc] at h
    cases h
  | ok p =>
    rw [hrc] at h
    exact hf p.1 (hr c p.1 p.2 hrc) p.2 b c' h

/-- A reading whose value is converted. -/
theorem map {g : α → β} (hr : Returns r fun a => Q (g a))
    (hs : ∀ c, s c = r c >>= fun p => .ok (g p.1, p.2)) : Returns s Q := by
  refine hr.bind (f := fun a c => .ok (g a, c)) (fun a ha c b c' h => ?_) hs
  obtain ⟨rfl, -⟩ := Prod.mk.inj (Except.ok.inj h)
  exact ha

/-- A reading after something that is not a reading. -/
theorem found {γ : Type} {x : Except Fault γ} {g : γ → Cursor → Except Fault (β × Cursor)}
    (h : ∀ a, x = .ok a → Returns (g a) Q) : Returns (fun c => x >>= fun a => g a c) Q := by
  intro c b c' hc
  cases hx : x with
  | error e =>
    rw [hx] at hc
    cases hc
  | ok a =>
    rw [hx] at hc
    exact h a hx c b c' hc

end Returns

/-! ## Numbers -/

theorem littleEndian_lt (data : List UInt8) : littleEndian data < Nat.pow 256 data.length := by
  induction data with
  | nil => decide
  | cons b bs ih =>
    have hb := b.toNat_lt
    rw [littleEndian, List.length_cons, Nat.pow_eq, Nat.pow_succ]
    rw [Nat.pow_eq] at ih
    omega

namespace Cursor

theorem read_returns (count : Nat) : Returns (read count) fun data => data.length = count := by
  intro c data c' h
  unfold read at h
  dsimp only at h
  split at h
  · cases h
  · next hfound =>
    obtain ⟨rfl, -⟩ := Prod.mk.inj (Except.ok.inj h)
    rw [List.length_take] at hfound ⊢
    omega

theorem nat_returns (size : Nat) : Returns (nat size) fun n => n < Nat.pow 256 size := by
  refine Returns.map (r := read size) (g := littleEndian) ?_ fun c => c.nat_eq size
  refine (read_returns size).imp fun data hdata => ?_
  rw [← hdata]
  exact littleEndian_lt data

theorem twosComplement_bounds {bits n : Nat} (h : n < Nat.pow 2 (bits + 1)) :
    -(Nat.pow 2 bits : Int) ≤ twosComplement (bits + 1) n ∧
      twosComplement (bits + 1) n < (Nat.pow 2 bits : Nat) := by
  have hpow : Nat.pow 2 (bits + 1) = Nat.pow 2 bits * 2 := rfl
  rw [twosComplement, hpow]
  rw [hpow] at h
  generalize Nat.pow 2 bits = half at *
  split <;> omega

theorem uint_returns (k : IntType) : Returns (uint k.size k.signed) k.Holds := by
  refine Returns.map (r := nat k.size)
    (g := fun n => if k.signed then twosComplement (8 * k.size) n else n) ?_
    fun c => c.uint_eq k.size k.signed
  refine (nat_returns k.size).imp fun n hn => ?_
  rw [pow_bits] at hn
  have hbits : k.bits = 8 * k.size := Nat.mul_comm ..
  unfold IntType.Holds
  rw [hbits]
  split
  · obtain ⟨bits, hb⟩ : ∃ bits, 8 * k.size = bits + 1 := ⟨8 * k.size - 1, by cases k <;> rfl⟩
    rw [hb] at hn ⊢
    exact twosComplement_bounds hn
  · exact ⟨Int.natCast_nonneg n, Int.ofNat_lt.mpr hn⟩

theorem uleb128Within_returns (limit : Nat) :
    Returns (uleb128Within limit) fun n => n < Nat.pow 128 limit := by
  induction limit with
  | zero =>
    intro c n c' h
    cases h
  | succ limit ih =>
    have hpow : Nat.pow 128 (limit + 1) = Nat.pow 128 limit * 128 := rfl
    have hpos : 0 < Nat.pow 128 limit := Nat.pow_pos (by decide)
    refine Returns.bind (r := byte) (P := fun _ => True) (f := uleb128After limit) ?_ ?_
      fun c => c.uleb128Within_eq limit
    · exact fun _ _ _ _ => trivial
    · rintro b - c n c' h
      unfold uleb128After at h
      split at h
      · obtain ⟨rfl, -⟩ := Prod.mk.inj (Except.ok.inj h)
        rw [hpow]
        omega
      · refine Returns.map (r := uleb128Within limit) (g := fun n => b.toNat % 128 + 128 * n)
          (Q := fun n => n < Nat.pow 128 (limit + 1)) (ih.imp fun n hn => ?_) (fun c => rfl) c n c' h
        rw [hpow]
        omega

theorem uleb128_returns : Returns uleb128 fun n => n < Nat.pow 2 70 :=
  (uleb128Within_returns maxNumberBytes).imp fun _ h => h

end Cursor

/-! ## Values by themselves -/

namespace Wire

open Cursor

variable {t : Table}

theorem integer_returns (k : IntType) : Returns (integer k) (Conforms t (.integer k)) :=
  Returns.map (g := Value.integer k) ((uint_returns k).imp fun _ h => .integer h)
    fun c => integer_eq c k

theorem float_returns (k : FloatType) : Returns (float k) (Conforms t (.float k)) := by
  refine Returns.map (r := nat k.size) (g := fun n => .float (floatOfPattern k n))
    ((nat_returns k.size).imp fun n _ => ?_) fun c => float_eq c k
  cases k
  · exact .float (.f32 (UInt32.ofNat n))
  · exact .float (.f64 (UInt64.ofNat n))

theorem bool_returns : Returns bool (Conforms t .bool) := by
  intro c v c' h
  rw [bool_eq] at h
  cases hb : c.byte with
  | error e =>
    rw [hb] at h
    cases h
  | ok p =>
    rw [hb] at h
    change (if 1 < p.1.toNat then _ else _) = _ at h
    split at h
    · cases h
    · obtain ⟨rfl, -⟩ := Prod.mk.inj (Except.ok.inj h)
      exact .bool _

theorem char_returns : Returns char (Conforms t .char) := by
  intro c v c' h
  rw [char_eq] at h
  cases hn : c.nat 4 with
  | error e =>
    rw [hn] at h
    cases h
  | ok p =>
    rw [hn] at h
    change (if p.1.isValidChar then _ else _) = _ at h
    split at h
    · obtain ⟨rfl, -⟩ := Prod.mk.inj (Except.ok.inj h)
      exact .char _
    · cases h

theorem counted_returns : Returns counted fun data => data.length < Nat.pow 2 70 :=
  uleb128_returns.bind (f := fun length c => c.read length)
    (fun length h => (read_returns length).imp fun _ hdata => hdata ▸ h) counted_eq

theorem encode_of_text {raw : List UInt8} {s : String} (h : text raw = .ok s) :
    Text.Utf8.encode s = raw := by
  unfold text at h
  cases hd : Text.Utf8.decode raw with
  | error fault =>
    rw [hd] at h
    cases h
  | ok s' =>
    rw [hd] at h
    obtain rfl := Except.ok.inj h
    exact Text.Utf8.encode_of_decode hd

theorem str_returns : Returns str (Conforms t .str) := by
  refine counted_returns.bind (f := fun raw c => text raw >>= fun s => .ok (.str s, c))
    (fun raw hraw => .found fun s hs c v c' h => ?_) str_eq
  obtain ⟨rfl, -⟩ := Prod.mk.inj (Except.ok.inj h)
  exact .str (encode_of_text hs ▸ hraw)

theorem istr_returns : Returns (istr t) (Conforms t .istr) := by
  refine uleb128_returns.bind
    (f := fun (index : Nat) c => t.lookup index >>= fun e => .ok (.istr index e.format, c))
    (fun index hindex => .found fun e he c v c' h => ?_) fun c => istr_eq c t
  obtain ⟨rfl, -⟩ := Prod.mk.inj (Except.ok.inj h)
  exact .istr hindex he

theorem bytes_returns : Returns bytes (Conforms t .bytes) :=
  Returns.map (g := Value.bytes) (counted_returns.imp fun _ h => .bytes h) bytes_eq

theorem byteArray_returns (length : Nat) :
    Returns (byteArray length) (Conforms t (.byteArray length)) := by
  refine Returns.map (g := Value.bytes) ((read_returns length).imp fun data hdata => ?_)
    fun c => byteArray_eq c length
  rw [← hdata]
  exact .byteArray data

theorem bitfield_returns (r : BitRange) : Returns (bitfield r) (Conforms t (.bitfield r)) := by
  refine Returns.map (g := fun n => Value.bitfield r (n * Nat.pow 256 r.lowByte))
    ((nat_returns r.byteCount).imp fun n hn => .bitfield ?_ (Nat.mul_mod_left ..))
    fun c => bitfield_eq c r
  have hpos : 0 < Nat.pow 256 r.lowByte := Nat.pow_pos (by decide)
  rw [Nat.add_comm, show Nat.pow 256 (r.byteCount + r.lowByte) = _ from Nat.pow_add ..]
  exact Nat.mul_lt_mul_of_pos_right hn hpos

/-! ## Nested values -/

/-- A value of the entry at `index` that has fewer than `levels` levels inside. -/
def NestedConforms (t : Table) (levels index : Nat) (v : Value) : Prop :=
  ∃ f args, v = .nested index args ∧ t.freshFormat index = .ok f ∧
    List.Forall₂ (Conforms t) f.arguments args ∧ Value.nestingAll args < levels

/-- Values of one entry have their arguments in a row. -/
theorem exists_map_nested {index : Nat} {P : List Value → Prop} {vs : List Value}
    (h : ∀ v ∈ vs, ∃ args, v = .nested index args ∧ P args) :
    ∃ elements : List (List Value), vs = elements.map (.nested index) ∧ ∀ args ∈ elements, P args := by
  induction vs with
  | nil => exact ⟨[], rfl, by simp⟩
  | cons v vs ih =>
    obtain ⟨args, rfl, hargs⟩ := h v List.mem_cons_self
    obtain ⟨elements, rfl, hall⟩ := ih fun w hw => h w (List.mem_cons_of_mem _ hw)
    exact ⟨args :: elements, rfl, by simpa using ⟨hargs, hall⟩⟩

section
variable {nested : Nat → Cursor → Except Fault (Value × Cursor)} {levels : Nat}
  (hn : ∀ index, Returns (nested index) (NestedConforms t levels index))

include hn

theorem elements_returns (index count : Nat) :
    Returns (elements (nested index) count) fun vs =>
      vs.length = count ∧ Value.nestingAll vs ≤ levels ∧ ∀ v ∈ vs, NestedConforms t levels index v := by
  induction count with
  | zero =>
    intro c vs c' h
    obtain ⟨rfl, -⟩ := Prod.mk.inj (Except.ok.inj h)
    exact ⟨rfl, Nat.zero_le _, by simp⟩
  | succ count ih =>
    refine (hn index).bind (f := fun v c => elements (nested index) count c >>= fun q =>
      .ok (v :: q.1, q.2)) (fun v hv => ?_) fun c => rfl
    refine Returns.map (g := (v :: ·)) (ih.imp fun vs ⟨hlen, hlevels, hall⟩ => ?_) fun c => rfl
    refine ⟨by rw [List.length_cons, hlen], ?_, by simpa using ⟨hv, hall⟩⟩
    obtain ⟨f, args, rfl, -, -, hargs⟩ := hv
    rw [Value.nestingAll, Value.nesting]
    omega

/-- A slice holds the values of one entry. -/
theorem slice_returns (count : Nat) :
    Returns (slice nested count) fun v => Conforms t .formatSlice v ∧ v.nesting ≤ levels := by
  intro c v c' h
  unfold slice at h
  split at h
  · cases h
  · next hmax =>
    split at h
    · obtain ⟨rfl, -⟩ := Prod.mk.inj (Except.ok.inj h)
      exact ⟨.noElements, Nat.zero_le _⟩
    · next hzero =>
      refine Returns.bind (Q := fun v => Conforms t .formatSlice v ∧ v.nesting ≤ levels)
        uleb128_returns (f := fun index c => elements (nested index) count c >>= fun q =>
          .ok (.formatSlice (some index) q.1, q.2)) (fun index hindex => ?_) (fun c => rfl) c v c' h
      refine Returns.map (g := Value.formatSlice (some index))
        ((elements_returns hn index count).imp fun vs ⟨hlen, hlevels, hall⟩ => ⟨?_, hlevels⟩)
        fun c => rfl
      have hne : vs ≠ [] := by
        rintro rfl
        exact hzero hlen.symm
      obtain ⟨w, hw⟩ := List.exists_mem_of_ne_nil vs hne
      obtain ⟨f, -, -, hf, -⟩ := hall w hw
      obtain ⟨elements, rfl, hargs⟩ := exists_map_nested
        (P := fun args => List.Forall₂ (Conforms t) f.arguments args) fun v hv => by
          obtain ⟨g, args, rfl, hg, hargs, -⟩ := hall v hv
          obtain rfl := Except.ok.inj (hf.symm.trans hg)
          exact ⟨args, rfl, hargs⟩
      rw [List.length_map] at hlen
      exact .elements hindex (by rintro rfl; exact hne rfl) (by omega) hf hargs

theorem argument_returns (type : ArgType) :
    Returns (argument t nested type) fun v => Conforms t type v ∧ v.nesting ≤ levels := by
  -- a value that is none of an entry has no levels
  have flat {r : Cursor → Except Fault (Value × Cursor)} {type : ArgType} (hr : Returns r (Conforms t type))
      (h0 : ∀ v, Conforms t type v → v.nesting = 0) :
      Returns (fun c => Fault.lift (r c)) fun v => Conforms t type v ∧ v.nesting ≤ levels :=
    hr.lift.imp fun v hv => ⟨hv, by rw [h0 v hv]; exact Nat.zero_le _⟩
  cases type with
  | integer k => exact flat (integer_returns k) fun v hv => by cases hv; rfl
  | float k => exact flat (float_returns k) fun v hv => by cases hv; rfl
  | bool => exact flat bool_returns fun v hv => by cases hv; rfl
  | char => exact flat char_returns fun v hv => by cases hv; rfl
  | str => exact flat str_returns fun v hv => by cases hv; rfl
  | istr => exact flat istr_returns fun v hv => by cases hv; rfl
  | bytes => exact flat bytes_returns fun v hv => by cases hv; rfl
  | byteArray n => exact flat (byteArray_returns n) fun v hv => by cases hv; rfl
  | bitfield r => exact flat (bitfield_returns r) fun v hv => by cases hv; rfl
  | format =>
    refine uleb128_returns.bind (fun index hindex => (hn index).imp fun v hv => ?_)
      fun c => indexed_eq c nested
    obtain ⟨f, args, rfl, hf, hargs, hlevels⟩ := hv
    exact ⟨.format hindex hf hargs, hlevels⟩
  | formatSlice =>
    exact uleb128_returns.bind (fun count _ => slice_returns hn count) fun c =>
      formatSlice_eq c nested
  | nested tag =>
    refine (hn tag.index).imp fun v hv => ?_
    obtain ⟨f, args, rfl, hf, hargs, hlevels⟩ := hv
    exact ⟨.nested hf hargs, hlevels⟩

theorem arguments_returns (types : List ArgType) :
    Returns (arguments t nested types) fun vs =>
      List.Forall₂ (Conforms t) types vs ∧ Value.nestingAll vs ≤ levels := by
  induction types with
  | nil =>
    intro c vs c' h
    obtain ⟨rfl, -⟩ := Prod.mk.inj (Except.ok.inj h)
    exact ⟨.nil, Nat.zero_le _⟩
  | cons type types ih =>
    refine (argument_returns hn type).bind (f := fun v c => arguments t nested types c >>= fun q =>
      .ok (v :: q.1, q.2)) (fun v ⟨hv, hlevel⟩ => ?_) fun c => rfl
    refine Returns.map (g := (v :: ·)) (ih.imp fun vs ⟨hvs, hlevels⟩ => ⟨.cons hv hvs, ?_⟩) fun c => rfl
    rw [Value.nestingAll]
    omega

end

theorem nestedValue_returns (levels index : Nat) :
    Returns (nestedValue t t.freshFormat levels index) (NestedConforms t levels index) := by
  induction levels generalizing index with
  | zero =>
    intro c v c' h
    cases h
  | succ levels ih =>
    intro c v c' h
    cases hf : t.freshFormat index with
    | error e =>
      rw [nestedValue, hf] at h
      cases h
    | ok f =>
      refine Returns.map (g := Value.nested index) (Q := NestedConforms t (levels + 1) index)
        ((arguments_returns ih f.arguments).imp fun args h => ?_)
        (fun c => nestedValue_eq c hf levels) c v c' h
      obtain ⟨hargs, hlevels⟩ := h
      exact ⟨f, args, rfl, hf, hargs, by omega⟩

/-- Arguments conform to the format that they are read for. -/
theorem decodeArguments_returns (depth : Nat) (f : FormatString) :
    Returns (decodeArguments t t.freshFormat depth f) fun vs =>
      List.Forall₂ (Conforms t) f.arguments vs ∧ Value.nestingAll vs ≤ t.maxDepth - depth :=
  arguments_returns (nestedValue_returns _) f.arguments

end Wire

/-! ## Frames -/

namespace Frame

variable {t : Table}

theorem entryArguments_returns (index : Nat) :
    Returns (entryArguments t t.freshFormat index) (t.Carries index) :=
  .found fun f hf => (Wire.decodeArguments_returns 0 f).imp fun _ ⟨hvs, hlevels⟩ =>
    ⟨f, hf, hvs, hlevels⟩

theorem decodeTimestamp_returns :
    Returns (decodeTimestamp t t.freshFormat) fun timestamp =>
      match t.timestamp with
      | none => timestamp = []
      | some index => t.Carries index timestamp := by
  unfold decodeTimestamp
  cases t.timestamp with
  | none =>
    intro c timestamp c' h
    obtain ⟨rfl, -⟩ := Prod.mk.inj (Except.ok.inj h)
    rfl
  | some index => exact entryArguments_returns index

theorem index_of_statement {index : Nat} {s : Entry × Level} (h : statement t index = .ok s) :
    s.1.index = index := by
  unfold statement at h
  rw [Table.lookup_natCast] at h
  cases he : t.entry? index with
  | none =>
    rw [he] at h
    cases h
  | some e =>
    rw [he] at h
    dsimp only at h
    split at h
    · obtain rfl := Except.ok.inj h
      exact t.entryMap.index_eq index e he
    · cases h

theorem decodeBody_returns {index : Nat} (hindex : index < Nat.pow 2 70) :
    Returns (decodeBody t t.freshFormat index) (Conforms t) := by
  rw [show decodeBody t t.freshFormat index = _ from funext fun c => decodeBody_eq c]
  refine .found fun s hs => ?_
  obtain rfl := index_of_statement hs
  refine decodeTimestamp_returns.bind (f := fun timestamp c =>
    entryArguments t t.freshFormat s.1.index c >>= fun q => .ok (⟨s.1, s.2, timestamp, q.1⟩, q.2))
    (fun timestamp htimestamp => ?_) fun c => rfl
  exact Returns.map (g := Frame.mk s.1 s.2 timestamp) ((entryArguments_returns s.1.index).imp
    fun args hargs => ⟨hindex, hs, htimestamp, hargs⟩) fun c => rfl

theorem decode_returns : Returns (decode t t.freshFormat) (Conforms t) :=
  Cursor.uleb128_returns.bind (fun _ hindex => decodeBody_returns hindex) decode_eq

end Frame

namespace Table

variable {t : Table} {data : List UInt8} {frame : Frame} {n : Nat}

/-- Frames that are decoded can travel. -/
theorem conforms_of_decodeFresh (h : t.decodeFresh data = .ok (frame, n)) : frame.Conforms t := by
  rw [decodeFresh_eq_bind] at h
  cases hd : Frame.decode t t.freshFormat ⟨data, 0, 0⟩ with
  | error e =>
    rw [hd] at h
    cases h
  | ok p =>
    rw [hd] at h
    obtain ⟨rfl, -⟩ := Prod.mk.inj (Except.ok.inj h)
    exact Frame.decode_returns _ _ _ hd

end Table

end DeferredLog
