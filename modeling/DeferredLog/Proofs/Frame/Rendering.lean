import DeferredLog.Proofs.Display.Outcome
import DeferredLog.Proofs.Frame.Draining
import DeferredLog.Proofs.Wire.Conformance

/-!
# Showing decoded frames

The message of a frame that was decoded, its timestamp and its line are texts, unless the frame carries
a number of binary32 whose rounding to four digits is out of range. That is the only thing that can go
wrong, and it always does (`rendering_decides`).
-/

namespace DeferredLog

open Display (Decides)

/-- The frames that a table, or a stream decoder with that table, returns in some state. -/
inductive Table.Decoded (t : Table) : Frame → Prop
  | frame {cache : FormatCache} {data : List UInt8} {frame : Frame} {n : Nat} :
      t.Remembers cache → t.decode cache data = .ok (frame, n) → Decoded t frame
  | attempt {cache : FormatCache} {d : StreamDecoder} {a : StreamDecoder.Attempt} {frame : Frame} :
      t.Remembers cache → (d.next t).result cache = .ok a → a.result = .ok frame → Decoded t frame

namespace Frame

variable {t : Table} {frame : Frame}

theorem conforms_of_decoded (ht : t.HasTextFormats) (h : t.Decoded frame) : frame.Conforms t := by
  cases h with
  | frame hc h =>
    rw [Table.decode_eq_decodeFresh hc] at h
    exact Table.conforms_of_decodeFresh h
  | @attempt cache d a frame hc h hframe =>
    rw [(StreamDecoder.next_agrees ht d cache hc).1] at h
    obtain rfl := Except.ok.inj h
    cases hd : t.decodeFresh d.buffer with
    | ok p =>
      rw [StreamDecoder.attempt_of_ok hd] at hframe
      exact Except.ok.inj hframe ▸ Table.conforms_of_decodeFresh hd
    | error e =>
      rw [StreamDecoder.attempt_of_error hd, StreamDecoder.failed_result] at hframe
      cases hframe

/-! ## Texts of an entry -/

/-- The format of an entry can be filled in with values that the entry carries. -/
theorem render_decides (ht : t.HasTextFormats) {index : Nat} {vs : List Value}
    (h : t.Carries index vs) :
    Decides (∀ v ∈ vs, v.Displayable) (fun _ => True)
      (t.freshFormat index >>= fun f => Display.render t.freshFormat f vs none) := by
  obtain ⟨f, hf, hvs, -⟩ := h
  rw [hf]
  refine Display.fill_decides (Table.wellSlotted_of_freshFormat hf) hvs (fun v hv => ?_) none
  obtain ⟨i, hi, rfl⟩ := List.mem_iff_getElem.mp hv
  obtain ⟨hlen, hall⟩ := List.forall₂_iff_get.mp hvs
  exact Display.valueShown_of_conforms ht (hall i (hlen ▸ hi) hi)

theorem message_decides (ht : t.HasTextFormats) (h : frame.Conforms t) :
    Decides (∀ v ∈ frame.args, v.Displayable) (fun _ => True) (frame.message t.freshFormat) := by
  have hrender := render_decides ht h.args
  have hmessage : frame.message t.freshFormat =
      (t.freshFormat frame.entry.index >>= fun f => Display.render t.freshFormat f frame.args none) >>=
        fun cs => .ok (String.ofList cs) := by
    rw [bind_assoc]
    rfl
  rw [hmessage]
  exact hrender.map fun _ _ => trivial

theorem timestampText_decides (ht : t.HasTextFormats) (h : frame.Conforms t) :
    Decides (∀ v ∈ frame.timestamp, v.Displayable) (fun text => text.isSome = t.timestamp.isSome)
      (frame.timestampText t t.freshFormat) := by
  have hstamp := h.timestamp
  unfold timestampText
  cases hts : t.timestamp with
  | none =>
    rw [hts] at hstamp
    exact .shown (by rw [show frame.timestamp = [] from hstamp]; simp) rfl
  | some index =>
    rw [hts] at hstamp
    have hrender := render_decides ht hstamp
    have htext : (do
        let f ← t.freshFormat index
        let cs ← Display.render t.freshFormat f frame.timestamp none
        pure (some (String.ofList cs))) =
        (t.freshFormat index >>= fun f => Display.render t.freshFormat f frame.timestamp none) >>=
          fun cs => .ok (some (String.ofList cs)) := by
      rw [bind_assoc]
      rfl
    dsimp only
    rw [htext]
    exact hrender.map fun _ _ => rfl

theorem line_decides (ht : t.HasTextFormats) (h : frame.Conforms t) (options : LineOptions) :
    Decides ((∀ v ∈ frame.timestamp, v.Displayable) ∧ ∀ v ∈ frame.args, v.Displayable)
      (fun _ => True) (frame.line t t.freshFormat options) :=
  (timestampText_decides ht h).bind fun _ _ => (message_decides ht h).map fun _ _ => trivial

/-- **When a decoded frame can be shown.** In every state of the memory, the message, the timestamp and
the line of a frame that was decoded are texts if no number of binary32 inside it is out of range;
otherwise this is the fault that is raised, and there is no other. -/
theorem rendering_decides (t : Table) (ht : t.HasTextFormats) (frame : Frame) (h : t.Decoded frame)
    (cache : FormatCache) (hc : t.Remembers cache) :
    Decides (∀ v ∈ frame.args, v.Displayable) (fun _ => True)
      ((frame.message t.format).result cache) ∧
    Decides (∀ v ∈ frame.timestamp, v.Displayable) (fun text => text.isSome = t.timestamp.isSome)
      ((frame.timestampText t t.format).result cache) ∧
    ∀ options, Decides ((∀ v ∈ frame.timestamp, v.Displayable) ∧ ∀ v ∈ frame.args, v.Displayable)
      (fun _ => True) ((frame.line t t.format options).result cache) := by
  have hconforms := conforms_of_decoded ht h
  rw [(message_agrees t.format_agrees frame cache hc).1,
    (timestampText_agrees t.format_agrees frame cache hc).1]
  refine ⟨message_decides ht hconforms, timestampText_decides ht hconforms, fun options => ?_⟩
  rw [(line_agrees t.format_agrees frame options cache hc).1]
  exact line_decides ht hconforms options

/-- A log statement that shows one number of binary32. -/
def floatStatement : Entry :=
  ⟨1, .string "{=f32}", some .info, none, .string "app", "defmt_info"⟩

/-- A table of this statement. -/
def floatTable : Table where
  version := "0.2.1"
  maxDepth := 32
  entryMap := EntryMap.empty.insert floatStatement
  timestamp := none
  timestamp_mem := by simp

theorem floatTable_hasTextFormats : floatTable.HasTextFormats :=
  Table.hasTextFormats_of_entries (by decide)

/-- A frame of that table with the number of a pattern. -/
def floatFrame (pattern : UInt32) : Frame := ⟨floatStatement, .info, [], [.float (.f32 pattern)]⟩

theorem decode_float_largest :
    floatTable.decode {} [1, 0xff, 0xff, 0x7f, 0x7f] = .ok (floatFrame 0x7f7fffff, 5) := by cbv

/-- The largest number of binary32 is decoded, but its frame has no message. -/
theorem message_float_largest :
    floatTable.Decoded (floatFrame 0x7f7fffff) ∧
      ((floatFrame 0x7f7fffff).message floatTable.format).result {} =
        .error (.display .floatRange) := by
  have hdecoded : floatTable.Decoded (floatFrame 0x7f7fffff) := .frame .nothing decode_float_largest
  have hout : ¬ ∀ v ∈ (floatFrame 0x7f7fffff).args, v.Displayable := by
    intro h
    exact h _ List.mem_cons_self 0x7f7fffff (.self _) ⟨by decide, by decide⟩
  have hmessage := message_decides floatTable_hasTextFormats
    (conforms_of_decoded floatTable_hasTextFormats hdecoded)
  refine ⟨hdecoded, ?_⟩
  rw [(message_agrees floatTable.format_agrees _ {} .nothing).1]
  generalize (floatFrame 0x7f7fffff).message floatTable.freshFormat = r at hmessage
  cases hmessage with
  | shown hin _ => exact absurd hin hout
  | refused _ => rfl

/-- The largest number below the range has one. -/
theorem rendering_decides_float :
    floatTable.HasTextFormats ∧ floatTable.Decoded (floatFrame 0x7f7ff9c4) ∧
      floatTable.Remembers {} ∧
      ∃ s, ((floatFrame 0x7f7ff9c4).message floatTable.format).result {} = .ok s := by
  have hdecoded : floatTable.Decoded (floatFrame 0x7f7ff9c4) :=
    .frame .nothing (show floatTable.decode {} [1, 0xc4, 0xf9, 0x7f, 0x7f] = .ok (_, 5) by cbv)
  obtain ⟨hmessage, -⟩ := rendering_decides floatTable floatTable_hasTextFormats _ hdecoded {} .nothing
  refine ⟨floatTable_hasTextFormats, hdecoded, .nothing, ?_⟩
  have hin : ∀ v ∈ (floatFrame 0x7f7ff9c4).args, v.Displayable := by
    intro v hv p hp
    obtain rfl := List.mem_singleton.mp hv
    cases hp
    simp [Display.RoundsOut]
  generalize ((floatFrame 0x7f7ff9c4).message floatTable.format).result {} = r at hmessage
  cases hmessage with
  | @shown s _ _ => exact ⟨s, rfl⟩
  | refused hout => exact absurd hin hout

end Frame

end DeferredLog
