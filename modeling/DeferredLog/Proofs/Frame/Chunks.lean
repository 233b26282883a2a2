import DeferredLog.Proofs.Frame.Draining

/-!
# Chunks of a stream

Bytes reach a decoder in chunks, and a chunk may end anywhere, inside a number or a nested value as
well. `feed` drains the decoder after each chunk; a fault does not keep the caller from writing the
next one. How a stream is cut does not matter (`feed_eq_drain`): the frames are those of the whole
stream, in order, the bytes left over are the same, and a fault is met exactly if the whole stream
meets it.
-/

namespace DeferredLog.StreamDecoder

open Cached (Agrees)

variable {t : Table} {d : StreamDecoder} {chunks : List (List UInt8)} {e : Fault} {rest : List UInt8}
  {pieces : List (Frame × List UInt8)}

/-- Writes chunks one after the other and drains the decoder after each of them. -/
def feed (t : Table) : List (List UInt8) → StreamDecoder → Cached (List Drained × StreamDecoder)
  | [], d => pure ([], d)
  | chunk :: chunks, d => do
    let first ← (d.write chunk).drain t
    let (later, d) ← feed t chunks first.decoder
    pure (first :: later, d)

theorem feed_cons_agrees {chunk : List UInt8} {first : Drained} {later : List Drained}
    {d' : StreamDecoder} (hfirst : Agrees t.Remembers ((d.write chunk).drain t) (.ok first))
    (hlater : Agrees t.Remembers (feed t chunks first.decoder) (.ok (later, d'))) :
    Agrees t.Remembers (feed t (chunk :: chunks) d) (.ok (first :: later, d')) :=
  hfirst.bind_ok (hlater.bind_ok (.pure _))

/-- A stream that is at fault stays so. -/
theorem feed_of_isDecodingFault (ht : t.HasTextFormats) (he : e.isDecodingFault = true)
    (hd : ∀ suffix, t.decodeFresh (d.buffer ++ suffix) = .error e) (hphase : d.phase = .fatal)
    (chunks : List (List UInt8)) :
    ∃ later d', Agrees t.Remembers (feed t chunks d) (.ok (later, d')) ∧
      (∀ r ∈ later, r.frames = [] ∧ r.fault = some e) ∧
      d'.buffer = d.buffer ++ chunks.flatten ∧ d'.phase = .fatal := by
  induction chunks generalizing d with
  | nil => exact ⟨[], d, .pure _, by simp, by simp, hphase⟩
  | cons chunk chunks ih =>
    have hfirst := drain_agrees (d := d.write chunk) ht (.stop (hd chunk))
    rw [drained_of_isDecodingFault he] at hfirst
    obtain ⟨later, d', hlater, hall, hbuf, hp⟩ :=
      ih (d := { d with buffer := d.buffer ++ chunk, phase := .fatal })
        (fun suffix => by rw [List.append_assoc]; exact hd _) rfl
    refine ⟨_, d', feed_cons_agrees hfirst hlater, ?_, ?_, hp⟩
    · intro r hr
      rcases List.mem_cons.mp hr with rfl | hr
      · exact ⟨rfl, rfl⟩
      · exact hall r hr
    · rw [hbuf, List.flatten_cons, List.append_assoc]

/-- The drains that led up to a fault, the one that met it, and those after it. -/
def StopsAt (drains : List Drained) (frames : List Frame) (e : Fault) : Prop :=
  ∃ quiet stop later, drains = quiet ++ stop :: later ∧
    (∀ r ∈ quiet, r.fault = none) ∧ stop.fault = some e ∧
    (quiet ++ [stop]).flatMap Drained.frames = frames ∧
    ∀ r ∈ later, r.frames = [] ∧ r.fault = some e

theorem StopsAt.flatMap_frames {drains : List Drained} {frames : List Frame}
    (h : StopsAt drains frames e) : drains.flatMap Drained.frames = frames := by
  obtain ⟨quiet, stop, later, rfl, -, -, rfl, hlater⟩ := h
  have hnone : later.flatMap Drained.frames = [] :=
    List.flatMap_eq_nil_iff.mpr fun r hr => (hlater r hr).1
  rw [← List.singleton_append, ← List.append_assoc, List.flatMap_append, hnone, List.append_nil]

theorem StopsAt.cons {first : Drained} {drains : List Drained} {frames : List Frame}
    (h : StopsAt drains frames e) (hfirst : first.fault = none) :
    StopsAt (first :: drains) (first.frames ++ frames) e := by
  obtain ⟨quiet, stop, later, rfl, hquiet, hstop, rfl, hlater⟩ := h
  refine ⟨first :: quiet, stop, later, rfl, ?_, hstop, rfl, hlater⟩
  intro r hr
  rcases List.mem_cons.mp hr with rfl | hr
  · exact hfirst
  · exact hquiet r hr

/-- A starved decoder finds in chunks what its buffer yields when all of them follow it. -/
theorem feed_agrees (ht : t.HasTextFormats) (chunks : List (List UInt8)) {missing : Nat}
    (hd : t.decodeFresh d.buffer = .error (.starved missing))
    (hy : t.Yields (d.buffer ++ chunks.flatten) pieces e rest) :
    ∃ drains d', Agrees t.Remembers (feed t chunks d) (.ok (drains, d')) ∧ d'.buffer = rest ∧
      (e.kind = .starved → drains.flatMap Drained.frames = pieces.map Prod.fst ∧
        (∀ r ∈ drains, r.fault = none) ∧ (d.phase = .starved ∨ chunks ≠ [] → d'.phase = .starved)) ∧
      (e.isDecodingFault = true → StopsAt drains (pieces.map Prod.fst) e ∧ d'.phase = .fatal) := by
  induction chunks generalizing d missing pieces with
  | nil =>
    rw [List.flatten_nil, List.append_nil] at hy
    obtain ⟨rfl, rfl, rfl⟩ := hy.unique (.stop hd)
    exact ⟨[], d, .pure _, rfl, fun _ => ⟨rfl, by simp, by simp⟩, fun he => by cases he⟩
  | cons chunk chunks ih =>
    rw [List.flatten_cons, ← List.append_assoc] at hy
    obtain ⟨pieces₁, e₁, rest₁, hy₁⟩ := Table.exists_yields ht (d.buffer ++ chunk)
    have hfirst := drain_agrees (d := d.write chunk) ht hy₁
    rcases hy₁.starved_or ht with he₁ | ⟨he₁, hstays⟩
    · -- what this chunk leaves over comes before the chunks that follow
      rw [drained_of_starved he₁] at hfirst
      obtain ⟨missing₁, rfl⟩ := Fault.kind_eq_starved_iff.mp he₁
      obtain ⟨pieces₂, e₂, rest₂, hy₂⟩ := Table.exists_yields ht (rest₁ ++ chunks.flatten)
      obtain ⟨rfl, rfl, rfl⟩ := hy.unique (hy₁.append ht hy₂)
      obtain ⟨later, d', hlater, hbuf, hstarved, hfault⟩ :=
        ih (d := { d with buffer := rest₁, phase := .starved }) hy₁.decodeFresh_rest hy₂
      refine ⟨_, d', feed_cons_agrees hfirst hlater, hbuf, fun he => ?_, fun he => ?_⟩
      · obtain ⟨hframes, hnone, hphase⟩ := hstarved he
        refine ⟨?_, ?_, fun _ => hphase (.inl rfl)⟩
        · rw [List.flatMap_cons, hframes, List.map_append]
        · intro r hr
          rcases List.mem_cons.mp hr with rfl | hr
          · rfl
          · exact hnone r hr
      · obtain ⟨hstops, hphase⟩ := hfault he
        rw [List.map_append]
        exact ⟨hstops.cons rfl, hphase⟩
    · -- the fault is met in this chunk, and again in all that follow
      rw [drained_of_isDecodingFault he₁] at hfirst
      have hwhole := hy₁.append ht (.stop (hstays chunks.flatten))
      rw [List.append_nil] at hwhole
      obtain ⟨rfl, rfl, rfl⟩ := hy.unique hwhole
      obtain ⟨later, d', hlater, hall, hbuf, hphase⟩ := feed_of_isDecodingFault
        (d := { d with buffer := rest₁, phase := .fatal }) ht he₁ hstays rfl chunks
      refine ⟨_, d', feed_cons_agrees hfirst hlater, hbuf, fun he => ?_, fun _ => ⟨?_, hphase⟩⟩
      · exact absurd he (Fault.kind_ne_starved he₁)
      · refine ⟨[], _, later, rfl, by simp, rfl, ?_, hall⟩
        rw [List.nil_append, List.flatMap_singleton]

/-- **Chunks do not matter.** The two decoders may have different names, and their tables may remember
different formats. -/
theorem feed_eq_drain (t : Table) (ht : t.HasTextFormats) (chunks : List (List UInt8))
    (hne : chunks ≠ []) (name name' : Option String) (cache cache' : FormatCache)
    (hc : t.Remembers cache) (hc' : t.Remembers cache') :
    ∃ drains d whole,
      (feed t chunks (new name)).result cache = .ok (drains, d) ∧
      (((new name').write chunks.flatten).drain t).result cache' = .ok whole ∧
      drains.flatMap Drained.frames = whole.frames ∧
      d.buffer = whole.decoder.buffer ∧ d.phase = whole.decoder.phase ∧
      (whole.fault = none → (∀ r ∈ drains, r.fault = none) ∧ whole.decoder.phase = .starved) ∧
      ∀ e, whole.fault = some e → e.isDecodingFault = true ∧ StopsAt drains whole.frames e := by
  obtain ⟨pieces, e, rest, hy⟩ := Table.exists_yields ht chunks.flatten
  obtain ⟨drains, d, hfeed, hbuf, hstarved, hfault⟩ :=
    feed_agrees (d := new name) ht chunks t.decodeFresh_nil hy
  have hdrain := drain_agrees (d := (new name').write chunks.flatten) ht hy
  refine ⟨drains, d, _, (hfeed cache hc).1, (hdrain cache' hc').1, ?_⟩
  rcases hy.starved_or ht with he | ⟨he, -⟩
  · obtain ⟨hframes, hnone, hphase⟩ := hstarved he
    rw [drained_of_starved he]
    refine ⟨hframes, hbuf, hphase (.inr hne), fun _ => ⟨hnone, rfl⟩, ?_⟩
    intro e' h
    cases h
  · obtain ⟨hstops, hphase⟩ := hfault he
    rw [drained_of_isDecodingFault he]
    refine ⟨hstops.flatMap_frames, hbuf, hphase, ?_, ?_⟩
    · intro h
      cases h
    · intro e' h
      obtain rfl := Option.some.inj h
      exact ⟨he, hstops⟩

/-- The sample frame and an unknown index, cut inside a character and inside a slice. -/
def sampleChunks : List (List UInt8) := [[1, 7, 2, 0xc3], [], [0xa9, 2, 2, 5], [6, 1, 2, 9], [1]]

theorem drain_sampleChunks :
    (((new none).write sampleChunks.flatten).drain Table.sample).result {} =
      .ok ⟨[Table.sampleFrame], some (.unknownIndex 9), ⟨defaultName, [9, 1], .fatal⟩,
        [faultRecord ⟨defaultName, [9, 1], .complete⟩ (.unknownIndex 9)]⟩ := by
  cbv

theorem feed_eq_drain_sample :
    Table.sample.HasTextFormats ∧ sampleChunks ≠ [] ∧ Table.sample.Remembers {} ∧
      ∃ drains d, (feed Table.sample sampleChunks (new none)).result {} = .ok (drains, d) ∧
        d.buffer = [9, 1] ∧ StopsAt drains [Table.sampleFrame] (.unknownIndex 9) := by
  obtain ⟨drains, d, whole, hfeed, hwhole, -, hbuf, -, -, hfault⟩ :=
    feed_eq_drain Table.sample Table.sample_hasTextFormats sampleChunks (by decide) none none {} {}
      .nothing .nothing
  rw [drain_sampleChunks] at hwhole
  obtain rfl := Except.ok.inj hwhole
  exact ⟨Table.sample_hasTextFormats, by decide, .nothing, drains, d, hfeed, hbuf, (hfault _ rfl).2⟩

end DeferredLog.StreamDecoder
