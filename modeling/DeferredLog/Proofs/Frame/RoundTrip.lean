import DeferredLog.Proofs.Frame.Prefix
import DeferredLog.Proofs.Wire.RoundTrip

/-!
# Frames are read back from their encoding

A frame travels as its index, the arguments of the timestamp format and its own arguments, with
nothing around them. `decode_inverts_encode` says of arguments at any place in any bytes, and of
frames, that decoding returns what was encoded and ends exactly behind it.
-/

namespace DeferredLog

open Cached (Agrees)

/-! ## The encoding of a frame -/

/-- Values that can travel as the arguments of an entry. -/
def Table.Carries (t : Table) (index : Nat) (vs : List Value) : Prop :=
  ∃ f, t.freshFormat index = .ok f ∧ List.Forall₂ (Wire.Conforms t) f.arguments vs ∧
    Value.nestingAll vs ≤ t.maxDepth

namespace Frame

/-- The bytes of the arguments of the timestamp format. -/
def encodeTimestamp (t : Table) (frame : Frame) : List UInt8 :=
  match t.timestamp with
  | none => []
  | some index => Wire.encodeAll t (t.slots index) frame.timestamp

/-- The bytes of a frame. -/
def encode (t : Table) (frame : Frame) : List UInt8 :=
  toUleb128 frame.entry.index ++
    (frame.encodeTimestamp t ++ Wire.encodeAll t (t.slots frame.entry.index) frame.args)

/-- The frames that can travel. -/
structure Conforms (t : Table) (frame : Frame) : Prop where
  index_lt : frame.entry.index < Nat.pow 2 70
  statement : Frame.statement t frame.entry.index = .ok (frame.entry, frame.level)
  timestamp : match t.timestamp with
    | none => frame.timestamp = []
    | some index => t.Carries index frame.timestamp
  args : t.Carries frame.entry.index frame.args

variable {t : Table} {frame : Frame}

theorem entryArguments_reads {index : Nat} {vs : List Value} (h : t.Carries index vs) :
    Reads (entryArguments t t.freshFormat index) (Wire.encodeAll t (t.slots index) vs) vs := by
  obtain ⟨f, hf, hvs, hdepth⟩ := h
  rw [Table.slots_of_ok hf, show entryArguments t t.freshFormat index = _ from
    funext fun c => entryArguments_eq c hf]
  exact Wire.decodeArguments_reads hvs hdepth

theorem decodeTimestamp_reads (h : frame.Conforms t) :
    Reads (decodeTimestamp t t.freshFormat) (frame.encodeTimestamp t) frame.timestamp := by
  have hstamp := h.timestamp
  unfold decodeTimestamp encodeTimestamp
  cases ht : t.timestamp with
  | none =>
    rw [ht] at hstamp
    rw [show frame.timestamp = [] from hstamp]
    exact .pure []
  | some index =>
    rw [ht] at hstamp
    exact entryArguments_reads hstamp

theorem decodeBody_reads (h : frame.Conforms t) :
    Reads (decodeBody t t.freshFormat frame.entry.index)
      (frame.encodeTimestamp t ++ Wire.encodeAll t (t.slots frame.entry.index) frame.args) frame := by
  have hargs := (entryArguments_reads h.args).map
    (Frame.mk frame.entry frame.level frame.timestamp) fun _ => rfl
  refine (decodeTimestamp_reads h).bind (f := fun timestamp c =>
    entryArguments t t.freshFormat frame.entry.index c >>= fun q =>
      .ok (Frame.mk frame.entry frame.level timestamp q.1, q.2)) hargs fun c => ?_
  rw [decodeBody_eq, h.statement]
  rfl

theorem decode_reads (h : frame.Conforms t) :
    Reads (decode t t.freshFormat) (frame.encode t) frame :=
  (Cursor.uleb128_reads h.index_lt).bind (decodeBody_reads h) decode_eq

end Frame

/-! ## Any place, any state of the memory -/

/-- **Decoding inverts encoding.** The first part is about the arguments of any format inside `depth`
levels of nesting, the second one about frames. -/
theorem decode_inverts_encode (t : Table) (cache : FormatCache) (hc : t.Remembers cache) :
    (∀ (f : FormatString) (vs : List Value) (depth : Nat) (before after : List UInt8),
      List.Forall₂ (Wire.Conforms t) f.arguments vs → Value.nestingAll vs ≤ t.maxDepth - depth →
      let bytes := Wire.encodeAll t f.arguments vs
      let data := before ++ bytes ++ after
      (Wire.decodeArguments t t.format depth f (Cursor.ofData data before.length)).result cache =
        .ok (vs, Cursor.ofData data (before.length + bytes.length))) ∧
    ∀ (frame : Frame) (after : List UInt8), frame.Conforms t →
      t.decode cache (frame.encode t ++ after) = .ok (frame, (frame.encode t).length) := by
  refine ⟨fun f vs depth before after h hdepth => ?_, fun frame after h => ?_⟩
  · intro bytes data
    have hstart : Cursor.ofData data before.length = ⟨bytes ++ after, before.length, 0⟩ := by
      rw [← Cursor.ofData_append, ← List.append_assoc]
    have hend : Cursor.ofData data (before.length + bytes.length) =
        ⟨after, before.length + bytes.length, 0⟩ := by
      rw [← List.length_append, Cursor.ofData_append]
    rw [hstart, hend, (Wire.decodeArguments_agrees t.format_agrees depth f _ cache hc).1]
    exact Wire.decodeArguments_reads h hdepth after before.length
  · rw [Table.decode_eq_decodeFresh hc, Table.decodeFresh_eq_bind, Frame.decode_reads h after 0,
      Nat.zero_add]
    rfl

/-- Slots of most kinds. -/
def sampleSlots : FormatString :=
  ⟨[], [.integer .i16, .float .f32, .bool, .char, .str, .istr, .bytes, .byteArray 2, .format,
    .formatSlice, .nested ⟨['2'], by decide⟩, .bitfield ⟨.w16, 9, 12, by decide, by decide⟩]⟩

/-- Values for these slots. -/
def sampleValues : List Value :=
  [.integer .i16 (-2), .float (.f32 0x3f800000), .bool true, .char 'é', .str "é",
    .istr 2 Table.sampleElement.format, .bytes [1, 2], .bytes [3, 4], .nested 2 [.integer .u8 5],
    .formatSlice (some 2) [.nested 2 [.integer .u8 6], .nested 2 [.integer .u8 7]],
    .nested 2 [.integer .u8 8], .bitfield ⟨.w16, 9, 12, by decide, by decide⟩ 0x1a00]

/-- The bytes of these values. -/
def sampleEncoding : List UInt8 :=
  [0xfe, 0xff, 0, 0, 0x80, 0x3f, 1, 0xe9, 0, 0, 0, 2, 0xc3, 0xa9, 2, 2, 1, 2, 3, 4, 2, 5, 2, 2, 6, 7,
    8, 0x1a]

theorem encodeAll_sampleValues :
    Wire.encodeAll Table.sample sampleSlots.arguments sampleValues = sampleEncoding := by
  decide +kernel

theorem freshFormat_sampleElement :
    ∃ fragments, Table.sample.freshFormat 2 = .ok ⟨fragments, [.integer .u8]⟩ := ⟨_, by cbv⟩

theorem conforms_u8 {n : Int} (h : 0 ≤ n ∧ n < 256) :
    List.Forall₂ (Wire.Conforms Table.sample) [.integer .u8] [.integer .u8 n] :=
  .cons (.integer h) .nil

/-- Two elements of the sample entry. -/
theorem conforms_slice {m n : Int} (hm : 0 ≤ m ∧ m < 256) (hn : 0 ≤ n ∧ n < 256) :
    Wire.Conforms Table.sample .formatSlice
      (.formatSlice (some 2) [.nested 2 [.integer .u8 m], .nested 2 [.integer .u8 n]]) := by
  obtain ⟨fragments, hf⟩ := freshFormat_sampleElement
  have hall : ∀ args ∈ [[Value.integer .u8 m], [.integer .u8 n]],
      List.Forall₂ (Wire.Conforms Table.sample) [.integer .u8] args := by
    intro args hargs
    rcases List.mem_pair.mp hargs with rfl | rfl
    · exact conforms_u8 hm
    · exact conforms_u8 hn
  refine .elements (by decide) (List.cons_ne_nil _ _) ?_ hf hall
  show 2 ≤ maxSliceLength
  decide

theorem conforms_sampleValues :
    List.Forall₂ (Wire.Conforms Table.sample) sampleSlots.arguments sampleValues := by
  obtain ⟨fragments, hf⟩ := freshFormat_sampleElement
  have htag : IndexTag.index ⟨['2'], by decide⟩ = 2 := by cbv
  have hnested :
      Wire.Conforms Table.sample (.nested ⟨['2'], by decide⟩) (.nested 2 [.integer .u8 8]) := by
    have := Wire.Conforms.nested (htag ▸ hf) (conforms_u8 (n := 8) (by decide))
    rwa [htag] at this
  have hinteger : Wire.Conforms Table.sample (.integer .i16) (.integer .i16 (-2)) :=
    .integer ⟨by decide, by decide⟩
  exact .cons hinteger <| .cons (.float (.f32 _)) <| .cons (.bool _) <| .cons (.char _) <|
    .cons (.str (by decide)) <| .cons (.istr (by decide) (by cbv)) <| .cons (.bytes (by decide)) <|
    .cons (.byteArray [3, 4]) <| .cons (.format (by decide) hf (conforms_u8 (by decide))) <|
    .cons (conforms_slice (by decide) (by decide)) <| .cons hnested <|
    .cons (.bitfield (by decide) (by decide)) .nil

theorem conforms_sampleFrame : Table.sampleFrame.Conforms Table.sample where
  index_lt := by decide
  statement := by cbv
  timestamp := by
    obtain ⟨fragments, hf⟩ : ∃ fragments, Table.sample.freshFormat 3 = .ok ⟨fragments, [.integer .u8]⟩ :=
      ⟨_, by cbv⟩
    exact ⟨_, hf, conforms_u8 (by decide), by decide⟩
  args := by
    obtain ⟨fragments, hf⟩ : ∃ fragments, Table.sample.freshFormat 1 =
      .ok ⟨fragments, [.str, .formatSlice, .integer .u16]⟩ := ⟨_, by cbv⟩
    have hinteger : Wire.Conforms Table.sample (.integer .u16) (.integer .u16 513) :=
      .integer ⟨by decide, by decide⟩
    exact ⟨_, hf, .cons (.str (by decide)) <| .cons (conforms_slice (by decide) (by decide)) <|
      .cons hinteger .nil, by decide⟩

theorem decode_inverts_encode_sample :
    Table.sample.Remembers {} ∧
      List.Forall₂ (Wire.Conforms Table.sample) sampleSlots.arguments sampleValues ∧
      Value.nestingAll sampleValues ≤ Table.sample.maxDepth - 31 ∧
      Table.sampleFrame.Conforms Table.sample ∧
      (Wire.decodeArguments Table.sample Table.sample.format 31 sampleSlots
          (Cursor.ofData ([7] ++ sampleEncoding ++ [9]) 1)).result {} =
        .ok (sampleValues, Cursor.ofData ([7] ++ sampleEncoding ++ [9]) 29) ∧
      ∀ after, Table.sample.decode {} (Table.sampleFrame.encode Table.sample ++ after) =
        .ok (Table.sampleFrame, (Table.sampleFrame.encode Table.sample).length) := by
  have hdepth : Value.nestingAll sampleValues ≤ Table.sample.maxDepth - 31 := by decide
  obtain ⟨hargs, hframe⟩ := decode_inverts_encode Table.sample {} .nothing
  have hread := hargs sampleSlots sampleValues 31 [7] [9] conforms_sampleValues hdepth
  rw [encodeAll_sampleValues] at hread
  exact ⟨.nothing, conforms_sampleValues, hdepth, conforms_sampleFrame, hread,
    fun after => hframe _ after conforms_sampleFrame⟩

end DeferredLog
