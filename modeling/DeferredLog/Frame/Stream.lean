import DeferredLog.Frame.Basic
import DeferredLog.Log

/-!
# Decoding a stream

A stream decoder buffers bytes in whatever chunks they arrive. Each attempt either yields the next frame
and drops exactly its bytes, or leaves the buffer as it is: starved if more bytes are needed, fatal if
the stream cannot be decoded. The caller then resynchronises by `skip` or `reset`. `Phase` tells how far
the latest attempt got.
-/

namespace DeferredLog

/-! ## Phases -/

/-- How far an attempt to decode a frame got. -/
inductive Phase where
  | awaitingIndex | awaitingArguments | complete | starved | fatal
  deriving DecidableEq, Repr

/-- What moves an attempt on. -/
inductive Trigger where
  | indexRead | argumentsRead | starve | fail | rearm
  deriving DecidableEq, Repr

/-- The phase that a trigger leads to, if it may occur. -/
def Phase.next? : Phase → Trigger → Option Phase
  | _, .rearm => some .awaitingIndex
  | .awaitingIndex, .indexRead => some .awaitingArguments
  | .awaitingArguments, .argumentsRead => some .complete
  | .awaitingIndex, .starve | .awaitingArguments, .starve => some .starved
  | .awaitingIndex, .fail | .awaitingArguments, .fail => some .fatal
  | _, _ => none

/-! ## The decoder -/

/-- Bytes received and not yet decoded, with the phase of the latest attempt. -/
structure StreamDecoder where
  name : String
  buffer : List UInt8
  phase : Phase
  deriving DecidableEq, Repr

namespace StreamDecoder

/-- The name of a decoder that was given none. -/
def defaultName : String := "FrameDecoder"

/-- A decoder without bytes. -/
def new (name : Option String) : StreamDecoder :=
  ⟨match name with
    | some n => if n.isEmpty then defaultName else n
    | none => defaultName, [], .awaitingIndex⟩

/-- Appends received bytes. -/
def write (data : List UInt8) (d : StreamDecoder) : StreamDecoder :=
  { d with buffer := d.buffer ++ data }

/-- Applies a trigger if it may occur. -/
def trigger? (trigger : Trigger) (d : StreamDecoder) : Option StreamDecoder :=
  (d.phase.next? trigger).map fun phase => { d with phase }

/-- Discards bytes from the front; a negative count keeps that many bytes at the end. -/
def skip (count : Int) (d : StreamDecoder) : StreamDecoder :=
  let dropped := if count < 0 then d.buffer.length - count.natAbs else count.toNat
  { d with buffer := d.buffer.drop dropped, phase := .awaitingIndex }

/-- Discards all bytes. -/
def reset (d : StreamDecoder) : StreamDecoder :=
  { d with buffer := [], phase := .awaitingIndex }

/-! ## Attempts -/

/-- What an attempt to decode a frame leads to. -/
structure Attempt where
  result : Except Fault Frame
  decoder : StreamDecoder
  records : List Log.Record

/-- How many bytes of the buffer a report shows. -/
def shownBytes : Nat := 32

/-- What a report of a fault says: the fault, and the bytes that the buffer starts with. -/
def faultTemplate : String := "Failed to decode frame: %s (buffer starts %s)"

/-- The report of a fault. -/
def faultRecord (d : StreamDecoder) (e : Fault) : Log.Record :=
  let start := Text.hexBytes (d.buffer.take shownBytes)
  ⟨.stream, .error, Log.tagged d.name faultTemplate, [e.message, s!"b'{start}'"]⟩

/-- The outcome of an attempt that failed in phase `phase`: a starved decoder waits, one that cannot
decode the stream reports it, and any other fault leaves the phase as it was. -/
def failed (d : StreamDecoder) (phase : Phase) (e : Fault) : Attempt :=
  if e.kind = .starved then ⟨.error e, { d with phase := .starved }, []⟩
  else if e.isDecodingFault then ⟨.error e, { d with phase := .fatal }, [d.faultRecord e]⟩
  else ⟨.error e, { d with phase }, []⟩

/-- Attempts to decode the frame at the front of the buffer. -/
def next (t : Table) (d : StreamDecoder) : Cached Attempt :=
  match (Cursor.start d.buffer).uleb128 with
  | .error e => pure (d.failed .awaitingIndex e)
  | .ok (index, c) => do
    match ← Cached.attempt (Frame.decodeBody t t.format index c) with
    | .error e => pure (d.failed .awaitingArguments e)
    | .ok (frame, c) => pure ⟨.ok frame, { d with buffer := c.rest, phase := .complete }, []⟩

/-- What draining the buffer leads to; `fault` is why it ended before the decoder was starved. -/
structure Drained where
  frames : List Frame
  fault : Option Fault
  decoder : StreamDecoder
  records : List Log.Record

/-- Makes up to `attempts` attempts, until one yields no frame. -/
def drainWithin (t : Table) : Nat → StreamDecoder → Cached Drained
  | 0, d => pure ⟨[], none, d, []⟩
  | attempts + 1, d => do
    let a ← d.next t
    match a.result with
    | .error e =>
      pure ⟨[], if e.kind = .starved then none else some e, a.decoder, a.records⟩
    | .ok frame =>
      let rest ← drainWithin t attempts a.decoder
      pure { rest with frames := frame :: rest.frames, records := a.records ++ rest.records }

/-- Decodes frames until the decoder is starved or cannot go on. Every frame takes at least one byte, so
there are no more frames than bytes. -/
def drain (t : Table) (d : StreamDecoder) : Cached Drained :=
  drainWithin t (d.buffer.length + 1) d

end StreamDecoder

end DeferredLog
