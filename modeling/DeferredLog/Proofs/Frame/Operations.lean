import DeferredLog.Proofs.Frame.Machine

/-!
# Runs of a decoder

A caller writes, decodes, drains, skips, resets and pulls triggers in any order. Whatever came before,
an attempt has the outcome that the table finds for the bytes in the buffer, and no operation meets an
illegal trigger: `Refines` lists what this means in one state, and which bytes a skip or a reset drops
there; `run_refines` says that it holds in every state that a run reaches. As long as nothing is skipped,
what was written is the bytes of the frames in order, followed by the buffer.
-/

namespace DeferredLog.StreamDecoder

open Cached (Agrees)

/-! ## Operations -/

/-- What a caller does with a decoder. -/
inductive Operation where
  | write (data : List UInt8)
  | decode
  | drain
  | skip (count : Int)
  | reset
  | trigger (trigger : Trigger)
  deriving DecidableEq, Repr

/-- What a caller is told. -/
inductive Outcome where
  | done
  | illegal (cause : IllegalTrigger)
  | attempted (result : Except Fault Frame)
  | drained (frames : List Frame) (fault : Option Fault)

/-- The bytes that an operation brings. -/
def Operation.written : Operation → List UInt8
  | write data => data
  | decode | drain | skip _ | reset | trigger _ => []

/-- Whether an operation drops only the bytes of frames. -/
def Operation.keeps : Operation → Bool
  | write _ | decode | drain | trigger _ => true
  | skip _ | reset => false

/-- The frames that a caller is given. -/
def Outcome.frames : Outcome → List Frame
  | attempted (.ok frame) => [frame]
  | drained frames _ => frames
  | done | illegal _ | attempted (.error _) => []

/-- Performs an operation. -/
def perform (t : Table) (op : Operation) (d : StreamDecoder) : Cached (Outcome × StreamDecoder) :=
  match op with
  | .write data => pure (.done, d.write data)
  | .decode => do
    let a ← d.next t
    pure (.attempted a.result, a.decoder)
  | .drain => do
    let r ← d.drain t
    pure (.drained r.frames r.fault, r.decoder)
  | .skip count => pure (.done, d.skip count)
  | .reset => pure (.done, d.reset)
  | .trigger trigger =>
    match d.fire trigger with
    | .ok d => pure (.done, d)
    | .error cause => pure (.illegal cause, d)

/-- Performs operations in order. -/
def run (t : Table) : List Operation → StreamDecoder → Cached (List Outcome × StreamDecoder)
  | [], d => pure ([], d)
  | op :: ops, d => do
    let (outcome, d) ← d.perform t op
    let (outcomes, d) ← run t ops d
    pure (outcome :: outcomes, d)

/-! ## Dropping bytes -/

/-- Bytes are dropped from the front of `before`, and `after` is left: `count` of them are dropped, or for a
negative count as many are kept, as far as there are that many. -/
def Drops (count : Int) (before after : List UInt8) : Prop :=
  ∃ dropped, before = dropped ++ after ∧
    (0 ≤ count → dropped.length = min count.toNat before.length) ∧
    (count < 0 → after.length = min count.natAbs before.length)

theorem drops_skip (d : StreamDecoder) (count : Int) : Drops count d.buffer (d.skip count).buffer := by
  unfold skip
  refine ⟨d.buffer.take _, (List.take_append_drop _ _).symm, fun h => ?_, fun h => ?_⟩
  · rw [if_neg (Int.not_lt.mpr h), List.length_take]
  · dsimp only
    rw [if_pos h, List.length_drop]
    omega

/-- Resetting drops as many bytes as there are. -/
theorem reset_eq_skip (d : StreamDecoder) : d.reset = d.skip d.buffer.length := by
  unfold reset skip
  dsimp only
  rw [if_neg (Int.not_lt.mpr (Int.natCast_nonneg _)), Int.toNat_natCast, List.drop_length]

/-! ## One state -/

/-- What a decoder does next while the table remembers `cache`, as against what the table finds in the
buffer while it remembers `other`. -/
structure Refines (t : Table) (cache other : FormatCache) (d : StreamDecoder) : Prop where
  /-- A frame is returned and exactly its bytes are dropped. -/
  frame : ∀ frame n, t.decode other d.buffer = .ok (frame, n) → (d.next t).result cache =
    .ok ⟨.ok frame, { d with buffer := d.buffer.drop n, phase := .complete }, []⟩
  /-- Where bytes are missing, the decoder waits for them. -/
  starved : ∀ missing, t.decode other d.buffer = .error (.starved missing) →
    (d.next t).result cache = .ok ⟨.error (.starved missing), { d with phase := .starved }, []⟩
  /-- A decoding fault is raised and reported. -/
  fault : ∀ e, e.isDecodingFault = true → t.decode other d.buffer = .error e →
    (d.next t).result cache = .ok ⟨.error e, { d with phase := .fatal }, [d.faultRecord e]⟩
  /-- A decoding fault stays whatever is written. -/
  stays : ∀ e, e.isDecodingFault = true → t.decode other d.buffer = .error e →
    ∀ data, t.decode other (d.write data).buffer = .error e
  /-- There are no other outcomes. -/
  total : (∃ frame n, t.decode other d.buffer = .ok (frame, n)) ∨
    (∃ missing, t.decode other d.buffer = .error (.starved missing)) ∨
    ∃ e, e.isDecodingFault = true ∧ t.decode other d.buffer = .error e
  /-- Draining ends, however many attempts are allowed, and ends where no frame follows. -/
  drain : ∃ r, (∀ attempts > d.buffer.length, (drainWithin t attempts d).result cache = .ok r) ∧
    r.frames.length ≤ d.buffer.length ∧
    ((r.fault = none ∧ r.decoder.phase = .starved ∧
        ∃ missing, t.decode other r.decoder.buffer = .error (.starved missing)) ∨
      ∃ e, r.fault = some e ∧ e.isDecodingFault = true ∧ r.decoder.phase = .fatal ∧
        t.decode other r.decoder.buffer = .error e)
  /-- No operation pulls an illegal trigger. -/
  legal : d.nextByTriggers t = ExceptT.lift (d.next t) ∧
    (∀ attempts, d.drainByTriggers t attempts = ExceptT.lift (d.drainWithin t attempts)) ∧
    (∀ count, d.skipByTriggers count = .ok (d.skip count)) ∧ d.resetByTriggers = .ok d.reset
  /-- Skipping drops as many bytes as it is told to, and another attempt may start. -/
  skip : ∀ count, Drops count d.buffer (d.skip count).buffer ∧
    (d.skip count).phase = .awaitingIndex ∧ (d.skip count).name = d.name
  /-- Resetting drops all bytes. -/
  reset : d.reset = d.skip d.buffer.length ∧ d.reset.buffer = []
  /-- A trigger changes the phase at most, and an illegal one not even that. -/
  trigger : ∀ trigger, d.perform t (.trigger trigger) =
    match d.phase.next? trigger with
    | some phase => pure (.done, { d with phase })
    | none => pure (.illegal ⟨d.phase, trigger⟩, d)

variable {t : Table} {d : StreamDecoder} {cache other : FormatCache}

theorem perform_trigger (t : Table) (d : StreamDecoder) (trigger : Trigger) :
    d.perform t (.trigger trigger) =
      match d.phase.next? trigger with
      | some phase => pure (.done, { d with phase })
      | none => pure (.illegal ⟨d.phase, trigger⟩, d) := by
  simp only [perform, fire, trigger?]
  cases d.phase.next? trigger <;> rfl

theorem refines (ht : t.HasTextFormats) (hc : t.Remembers cache) (ho : t.Remembers other)
    (d : StreamDecoder) : Refines t cache other d where
  frame := by
    intro frame n h
    rw [Table.decode_eq_decodeFresh ho] at h
    rw [(next_agrees ht d cache hc).1, attempt_of_ok h]
  starved := by
    intro missing h
    rw [Table.decode_eq_decodeFresh ho] at h
    rw [(next_agrees ht d cache hc).1, attempt_of_error h, failed_of_starved rfl]
  fault := by
    intro e he h
    rw [Table.decode_eq_decodeFresh ho] at h
    rw [(next_agrees ht d cache hc).1, attempt_of_error h, failed_of_isDecodingFault he]
  stays := by
    intro e he h data
    rw [Table.decode_eq_decodeFresh ho] at h ⊢
    rcases Table.decodeFresh_refusal ht h with hk | ⟨-, hall⟩
    · exact absurd hk (Fault.kind_ne_starved he)
    · exact hall data
  total := by
    rw [Table.decode_eq_decodeFresh ho]
    cases hd : t.decodeFresh d.buffer with
    | ok p => exact .inl ⟨p.1, p.2, rfl⟩
    | error e =>
      rcases Table.decodeFresh_refusal ht hd with he | ⟨he, -⟩
      · obtain ⟨missing, rfl⟩ := Fault.kind_eq_starved_iff.mp he
        exact .inr (.inl ⟨missing, rfl⟩)
      · exact .inr (.inr ⟨e, he, rfl⟩)
  drain := by
    obtain ⟨pieces, e, rest, hy⟩ := Table.exists_yields ht d.buffer
    have hrest := hy.decodeFresh_rest
    have hlen := hy.length_le ht
    refine ⟨d.drained pieces e rest, ?_, ?_, ?_⟩
    · intro attempts h
      exact (drainWithin_agrees ht hy h rfl cache hc).1
    · rw [drained, List.length_map]
      omega
    · rcases hy.starved_or ht with he | ⟨he, -⟩
      · rw [drained_of_starved he, Table.decode_eq_decodeFresh ho]
        obtain ⟨missing, rfl⟩ := Fault.kind_eq_starved_iff.mp he
        exact .inl ⟨rfl, rfl, missing, hrest⟩
      · rw [drained_of_isDecodingFault he, Table.decode_eq_decodeFresh ho]
        exact .inr ⟨e, rfl, he, rfl, hrest⟩
  legal := ⟨nextByTriggers_eq t d, fun attempts => drainByTriggers_eq t attempts d,
    fun count => skipByTriggers_eq count d, resetByTriggers_eq d⟩
  skip count := ⟨drops_skip d count, rfl, rfl⟩
  reset := ⟨reset_eq_skip d, rfl⟩
  trigger := perform_trigger t d

/-! ## Whole runs -/

/-- `before` and what was written are the bytes of the frames in order, followed by `after`. -/
def Conserves (t : Table) (before written : List UInt8) (frames : List Frame) (after : List UInt8) :
    Prop :=
  ∃ pieces : List (Frame × List UInt8), pieces.map Prod.fst = frames ∧
    (∀ p ∈ pieces, ∀ other, t.Remembers other → t.decode other p.2 = .ok (p.1, p.2.length)) ∧
    before ++ written = pieces.flatMap Prod.snd ++ after

theorem Conserves.refl (t : Table) (data : List UInt8) : Conserves t data [] [] data :=
  ⟨[], rfl, by simp, by simp⟩

theorem Conserves.trans {before middle after w w' : List UInt8} {frames frames' : List Frame}
    (h : Conserves t before w frames middle) (h' : Conserves t middle w' frames' after) :
    Conserves t before (w ++ w') (frames ++ frames') after := by
  obtain ⟨pieces, rfl, hp, heq⟩ := h
  obtain ⟨pieces', rfl, hp', heq'⟩ := h'
  refine ⟨pieces ++ pieces', List.map_append, ?_, ?_⟩
  · intro p h
    rcases List.mem_append.mp h with h | h
    · exact hp p h
    · exact hp' p h
  · rw [← List.append_assoc, heq, List.append_assoc, heq', List.flatMap_append, List.append_assoc]

theorem conserves_of_yields (ht : t.HasTextFormats) {data rest : List UInt8} {e : Fault}
    {pieces : List (Frame × List UInt8)} (h : t.Yields data pieces e rest) :
    Conserves t data [] (pieces.map Prod.fst) rest := by
  refine ⟨pieces, rfl, ?_, ?_⟩
  · intro p hp other ho
    rw [Table.decode_eq_decodeFresh ho]
    exact h.decodeFresh_piece ht p hp
  · rw [List.append_nil]
    exact h.data_eq

/-- An attempt conserves the bytes. -/
theorem attempt_conserves (ht : t.HasTextFormats) (d : StreamDecoder) :
    Conserves t d.buffer [] (Outcome.attempted (d.attempt t).result).frames
      (d.attempt t).decoder.buffer := by
  cases hd : t.decodeFresh d.buffer with
  | ok p =>
    obtain ⟨frame, n⟩ := p
    rw [attempt_of_ok hd]
    obtain ⟨hle, htake⟩ := Table.decodeFresh_take_append ht hd
    refine ⟨[(frame, d.buffer.take n)], rfl, ?_, ?_⟩
    · intro p hp other ho
      obtain rfl := List.mem_singleton.mp hp
      have hpiece := htake []
      rw [List.append_nil] at hpiece
      rw [Table.decode_eq_decodeFresh ho, hpiece, List.length_take_of_le hle]
    · simp
  | error e =>
    rw [attempt_of_error hd, failed_result, failed_buffer]
    exact .refl t d.buffer

/-- One operation. -/
theorem perform_agrees (ht : t.HasTextFormats) (op : Operation) (d : StreamDecoder) :
    ∃ outcome d', Agrees t.Remembers (d.perform t op) (.ok (outcome, d')) ∧
      (op.keeps = true → Conserves t d.buffer op.written outcome.frames d'.buffer) := by
  cases op with
  | write data => exact ⟨_, _, .pure _, fun _ => ⟨[], rfl, by simp, rfl⟩⟩
  | decode => exact ⟨_, _, (next_agrees ht d).bind_ok (.pure _), fun _ => attempt_conserves ht d⟩
  | drain =>
    obtain ⟨pieces, e, rest, hy⟩ := Table.exists_yields ht d.buffer
    refine ⟨_, _, (drain_agrees ht hy).bind_ok (.pure _), fun _ => ?_⟩
    rw [drained, failed_buffer]
    exact conserves_of_yields ht hy
  | skip count => exact ⟨_, _, .pure _, fun h => by cases h⟩
  | reset => exact ⟨_, _, .pure _, fun h => by cases h⟩
  | trigger trigger =>
    rw [perform_trigger]
    cases d.phase.next? trigger with
    | none => exact ⟨_, _, .pure _, fun _ => .refl t d.buffer⟩
    | some phase => exact ⟨_, _, .pure _, fun _ => .refl t d.buffer⟩

/-- Operations in order. -/
theorem run_agrees (ht : t.HasTextFormats) (ops : List Operation) (d : StreamDecoder) :
    ∃ outcomes d', Agrees t.Remembers (d.run t ops) (.ok (outcomes, d')) ∧
      (ops.all Operation.keeps = true →
        Conserves t d.buffer (ops.flatMap Operation.written) (outcomes.flatMap Outcome.frames)
          d'.buffer) := by
  induction ops generalizing d with
  | nil => exact ⟨[], d, .pure _, fun _ => .refl t d.buffer⟩
  | cons op ops ih =>
    obtain ⟨outcome, d₁, hop, hkeep⟩ := perform_agrees ht op d
    obtain ⟨outcomes, d', hops, hkeeps⟩ := ih d₁
    refine ⟨outcome :: outcomes, d', hop.bind_ok (hops.bind_ok (.pure _)), fun h => ?_⟩
    rw [List.all_cons, Bool.and_eq_true] at h
    exact (hkeep h.1).trans (hkeeps h.2)

/-- **A decoder refines its table.** Every run of operations comes to its end, in a state in which the
decoder does what the table says of the buffer; without skips and resets no byte is lost. -/
theorem run_refines (t : Table) (ht : t.HasTextFormats) (name : Option String) (ops : List Operation)
    (cache : FormatCache) (hc : t.Remembers cache) :
    ∃ outcomes d, ((new name).run t ops).result cache = .ok (outcomes, d) ∧
      t.Remembers (((new name).run t ops).cacheAfter cache) ∧
      (∀ now other, t.Remembers now → t.Remembers other → Refines t now other d) ∧
      (ops.all Operation.keeps = true →
        Conserves t [] (ops.flatMap Operation.written) (outcomes.flatMap Outcome.frames) d.buffer) := by
  obtain ⟨outcomes, d, hrun, hkeeps⟩ := run_agrees ht ops (new name)
  obtain ⟨hresult, hafter⟩ := hrun cache hc
  exact ⟨outcomes, d, hresult, hafter, fun _ _ hn ho => refines ht hn ho d, hkeeps⟩

/-- The sample frame in two parts and an unknown index, with triggers pulled in between. -/
def sampleOperations : List Operation :=
  [.write [1, 7, 2, 0xc3], .trigger .argumentsRead, .decode, .write [0xa9, 2, 2, 5, 6, 1, 2, 9],
    .trigger .starve, .decode, .decode, .trigger .indexRead, .drain, .write [5]]

theorem run_sampleOperations :
    ((new none).run Table.sample sampleOperations).result {} =
      .ok ([.done, .illegal ⟨.awaitingIndex, .argumentsRead⟩, .attempted (.error (.starved 1)), .done,
          .illegal ⟨.starved, .starve⟩, .attempted (.ok Table.sampleFrame),
          .attempted (.error (.unknownIndex 9)), .illegal ⟨.fatal, .indexRead⟩,
          .drained [] (some (.unknownIndex 9)), .done],
        ⟨defaultName, [9, 5], .fatal⟩) := by
  cbv

theorem run_refines_sample :
    Table.sample.HasTextFormats ∧ Table.sample.Remembers {} ∧
      Refines Table.sample {} {} ⟨defaultName, [9, 5], .fatal⟩ ∧
      Conserves Table.sample [] [1, 7, 2, 0xc3, 0xa9, 2, 2, 5, 6, 1, 2, 9, 5] [Table.sampleFrame]
        [9, 5] := by
  obtain ⟨outcomes, d, hrun, -, hrefines, hconserves⟩ :=
    run_refines Table.sample Table.sample_hasTextFormats none sampleOperations {} .nothing
  rw [run_sampleOperations] at hrun
  obtain ⟨rfl, rfl⟩ := Prod.mk.inj (Except.ok.inj hrun)
  exact ⟨Table.sample_hasTextFormats, .nothing, hrefines _ _ .nothing .nothing, hconserves rfl⟩

end DeferredLog.StreamDecoder
