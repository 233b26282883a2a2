import DeferredLog.Frame.Stream
import DeferredLog.Proofs.Frame.Prefix

/-!
# Attempts and draining

An attempt of a stream decoder finds what the table finds at the front of the buffer, whatever the
table remembers and whatever phase the decoder is in (`next_agrees`). `Table.Yields` describes what
repeated attempts lead to: the frames at the front of some bytes, and the fault at the rest of them.
Every byte string yields something, and only one thing; draining finds it (`drain_agrees`). What bytes
yield when more of them follow is what they yielded before, followed by what their rest yields then
(`Yields.append`).
-/

namespace DeferredLog

open Cached (Agrees)

/-! ## One attempt -/

namespace StreamDecoder

variable {t : Table} {d : StreamDecoder} {frame : Frame} {n : Nat} {e : Fault}

/-- The attempt that a table leads to which remembers nothing. -/
def attempt (t : Table) (d : StreamDecoder) : Attempt :=
  match t.decodeFresh d.buffer with
  | .ok (frame, n) => ⟨.ok frame, { d with buffer := d.buffer.drop n, phase := .complete }, []⟩
  | .error e => d.failed .awaitingIndex e

theorem attempt_of_ok (h : t.decodeFresh d.buffer = .ok (frame, n)) :
    d.attempt t = ⟨.ok frame, { d with buffer := d.buffer.drop n, phase := .complete }, []⟩ := by
  rw [attempt, h]

theorem attempt_of_error (h : t.decodeFresh d.buffer = .error e) :
    d.attempt t = d.failed .awaitingIndex e := by
  rw [attempt, h]

theorem failed_of_starved (h : e.kind = .starved) (phase : Phase) :
    d.failed phase e = ⟨.error e, { d with phase := .starved }, []⟩ := if_pos h

theorem failed_of_isDecodingFault (h : e.isDecodingFault = true) (phase : Phase) :
    d.failed phase e = ⟨.error e, { d with phase := .fatal }, [d.faultRecord e]⟩ := by
  rw [failed, if_neg (Fault.kind_ne_starved h), if_pos h]

@[simp] theorem failed_result (d : StreamDecoder) (phase : Phase) (e : Fault) :
    (d.failed phase e).result = .error e := by
  unfold failed
  split
  · rfl
  · split <;> rfl

/-- A fault leaves the buffer as it is. -/
@[simp] theorem failed_buffer (d : StreamDecoder) (phase : Phase) (e : Fault) :
    (d.failed phase e).decoder.buffer = d.buffer := by
  unfold failed
  split
  · rfl
  · split <;> rfl

/-- The phase before an attempt has no part in how it fails. -/
theorem failed_phase (phase : Phase) (e : Fault) :
    ({ d with phase } : StreamDecoder).failed .awaitingIndex e = d.failed .awaitingIndex e := by
  simp only [failed, faultRecord]

/-- Nor has the phase in which the fault is met: only faults of other kinds would tell them apart. -/
theorem failed_of_decodeFresh (ht : t.HasTextFormats) (h : t.decodeFresh d.buffer = .error e)
    (phase : Phase) : d.failed phase e = d.failed .awaitingIndex e := by
  rcases Table.decodeFresh_refusal ht h with he | ⟨he, -⟩
  · rw [failed_of_starved he, failed_of_starved he]
  · rw [failed_of_isDecodingFault he, failed_of_isDecodingFault he]

/-- What a frame leaves over is what comes behind its bytes. -/
theorem rest_of_decode (ht : t.HasTextFormats) {data : List UInt8} {c : Cursor}
    (h : Frame.decode t t.freshFormat ⟨data, 0, 0⟩ = .ok (frame, c)) : c.rest = data.drop c.offset := by
  obtain ⟨used, rest, rfl, hused⟩ := (Table.prefixed_decode ht).value h
  obtain ⟨-, rfl⟩ := Prod.mk.inj (Except.ok.inj (h.symm.trans (hused rest)))
  rw [Nat.zero_add, List.drop_left]

theorem next_agrees (ht : t.HasTextFormats) (d : StreamDecoder) :
    Agrees t.Remembers (d.next t) (.ok (d.attempt t)) := by
  have hbind := t.decodeFresh_eq_bind d.buffer
  have hdecode : Frame.decode t t.freshFormat ⟨d.buffer, 0, 0⟩ = _ := Frame.decode_eq _
  unfold next Cursor.start
  cases hu : Cursor.uleb128 ⟨d.buffer, 0, 0⟩ with
  | error e =>
    have hd : t.decodeFresh d.buffer = .error e := by
      rw [hbind, hdecode, hu]
      rfl
    rw [attempt_of_error hd]
    exact .pure _
  | ok p =>
    obtain ⟨index, c⟩ := p
    rw [hu] at hdecode
    refine (Frame.decodeBody_agrees t.format_agrees index c).attempt.bind_ok ?_
    cases hb : Frame.decodeBody t t.freshFormat index c with
    | error e =>
      have hd : t.decodeFresh d.buffer = .error e := by
        rw [hbind, hdecode]
        show Frame.decodeBody t t.freshFormat index c >>= _ = _
        rw [hb]
        rfl
      rw [attempt_of_error hd, ← failed_of_decodeFresh ht hd .awaitingArguments]
      exact .pure _
    | ok q =>
      obtain ⟨frame, c'⟩ := q
      have hframe : Frame.decode t t.freshFormat ⟨d.buffer, 0, 0⟩ = .ok (frame, c') :=
        hdecode.trans hb
      have hd : t.decodeFresh d.buffer = .ok (frame, c'.offset) := by
        rw [hbind, hframe]
        rfl
      rw [attempt_of_ok hd, ← rest_of_decode ht hframe]
      exact .pure _

end StreamDecoder

/-! ## What bytes yield -/

namespace Table

variable {t : Table} {data rest rest' : List UInt8} {e e' : Fault}
  {pieces pieces' : List (Frame × List UInt8)}

/-- The frames at the front of some bytes, each with the bytes that it takes, and the fault that is met
at the rest. -/
inductive Yields (t : Table) : List UInt8 → List (Frame × List UInt8) → Fault → List UInt8 → Prop
  | stop {rest : List UInt8} {e : Fault} : t.decodeFresh rest = .error e → Yields t rest [] e rest
  | frame {used later rest : List UInt8} {frame : Frame} {pieces : List (Frame × List UInt8)}
      {e : Fault} :
      t.decodeFresh (used ++ later) = .ok (frame, used.length) → Yields t later pieces e rest →
      Yields t (used ++ later) ((frame, used) :: pieces) e rest

/-- Every byte string yields something, since every frame takes a byte. -/
theorem exists_yields (ht : t.HasTextFormats) (data : List UInt8) :
    ∃ pieces e rest, t.Yields data pieces e rest := by
  induction hlen : data.length using Nat.strongRecOn generalizing data with
  | ind len ih =>
    cases hd : t.decodeFresh data with
    | error e => exact ⟨[], e, data, .stop hd⟩
    | ok p =>
      obtain ⟨frame, n⟩ := p
      have hle := (decodeFresh_take_append ht hd).1
      have hpos := pos_of_decodeFresh ht hd
      have hused : (data.take n).length = n := List.length_take_of_le hle
      obtain ⟨pieces, e, rest, hy⟩ := ih (data.drop n).length (by rw [List.length_drop]; omega) _ rfl
      have hd' : t.decodeFresh (data.take n ++ data.drop n) = .ok (frame, (data.take n).length) := by
        rw [List.take_append_drop, hused, hd]
      have hy' := Yields.frame hd' hy
      rw [List.take_append_drop] at hy'
      exact ⟨_, e, rest, hy'⟩

namespace Yields

/-- No byte is lost, read twice or moved. -/
theorem data_eq (h : t.Yields data pieces e rest) : data = pieces.flatMap Prod.snd ++ rest := by
  induction h with
  | stop _ => rfl
  | frame _ _ ih => rw [List.flatMap_cons, List.append_assoc, ← ih]

theorem decodeFresh_rest (h : t.Yields data pieces e rest) : t.decodeFresh rest = .error e := by
  induction h with
  | stop h => exact h
  | frame _ _ ih => exact ih

/-- Each frame is the one that its own bytes hold. -/
theorem decodeFresh_piece (ht : t.HasTextFormats) (h : t.Yields data pieces e rest) :
    ∀ p ∈ pieces, t.decodeFresh p.2 = .ok (p.1, p.2.length) := by
  induction h with
  | stop _ => intro p hp; cases hp
  | frame hd _ ih =>
    intro p hp
    rcases List.mem_cons.mp hp with rfl | hp
    · have := (decodeFresh_take_append ht hd).2 []
      rwa [List.take_left, List.append_nil] at this
    · exact ih p hp

/-- There are no more frames than bytes. -/
theorem length_le (ht : t.HasTextFormats) (h : t.Yields data pieces e rest) :
    pieces.length + rest.length ≤ data.length := by
  induction h with
  | stop _ => simp
  | frame hd _ ih =>
    have := pos_of_decodeFresh ht hd
    rw [List.length_cons, List.length_append]
    omega

theorem unique (h : t.Yields data pieces e rest) (h' : t.Yields data pieces' e' rest') :
    pieces = pieces' ∧ e = e' ∧ rest = rest' := by
  induction h generalizing pieces' with
  | stop hd =>
    cases h' with
    | stop hd' => exact ⟨rfl, Except.error.inj (hd.symm.trans hd'), rfl⟩
    | frame hd' _ => cases hd.symm.trans hd'
  | @frame used later rest frame pieces e hd _ ih =>
    generalize hdata : used ++ later = data at hd h'
    cases h' with
    | stop hd' => cases hd.symm.trans hd'
    | @frame used' later' _ frame' pieces' _ hd' h' =>
      obtain ⟨rfl, hn⟩ := Prod.mk.inj (Except.ok.inj (hd.symm.trans hd'))
      obtain ⟨rfl, rfl⟩ := List.append_inj hdata hn
      obtain ⟨rfl, rfl, rfl⟩ := ih h'
      exact ⟨rfl, rfl, rfl⟩

/-- More bytes add frames behind those that are there already. -/
theorem append (ht : t.HasTextFormats) (h : t.Yields data pieces e rest) {suffix : List UInt8}
    (h' : t.Yields (rest ++ suffix) pieces' e' rest') :
    t.Yields (data ++ suffix) (pieces ++ pieces') e' rest' := by
  induction h with
  | stop _ => exact h'
  | frame hd _ ih =>
    have hd' := decodeFresh_append ht hd suffix
    rw [List.append_assoc] at hd' ⊢
    exact .frame hd' (ih h')

theorem starved_or (ht : t.HasTextFormats) (h : t.Yields data pieces e rest) :
    e.kind = .starved ∨ e.isDecodingFault = true ∧ ∀ suffix, t.decodeFresh (rest ++ suffix) = .error e :=
  decodeFresh_refusal ht h.decodeFresh_rest

end Yields

end Table

/-! ## Draining -/

namespace StreamDecoder

variable {t : Table} {d : StreamDecoder} {data rest : List UInt8} {e : Fault}
  {pieces : List (Frame × List UInt8)}

/-- What draining leads to if the buffer yields `pieces` and then `e` at `rest`. -/
def drained (d : StreamDecoder) (pieces : List (Frame × List UInt8)) (e : Fault)
    (rest : List UInt8) : Drained :=
  let last := ({ d with buffer := rest } : StreamDecoder).failed .awaitingIndex e
  ⟨pieces.map Prod.fst, if e.kind = .starved then none else some e, last.decoder, last.records⟩

theorem drained_of_starved (h : e.kind = .starved) :
    d.drained pieces e rest =
      ⟨pieces.map Prod.fst, none, { d with buffer := rest, phase := .starved }, []⟩ := by
  rw [drained, failed_of_starved h, if_pos h]

theorem drained_of_isDecodingFault (h : e.isDecodingFault = true) :
    d.drained pieces e rest =
      ⟨pieces.map Prod.fst, some e, { d with buffer := rest, phase := .fatal },
        [({ d with buffer := rest } : StreamDecoder).faultRecord e]⟩ := by
  rw [drained, failed_of_isDecodingFault h, if_neg (Fault.kind_ne_starved h)]

/-- More attempts than bytes are enough to find all that the buffer yields. -/
theorem drainWithin_agrees (ht : t.HasTextFormats) (h : t.Yields data pieces e rest) {attempts : Nat}
    (hlen : data.length < attempts) (hbuf : d.buffer = data) :
    Agrees t.Remembers (drainWithin t attempts d) (.ok (d.drained pieces e rest)) := by
  induction h generalizing attempts d with
  | @stop rest e hd =>
    subst hbuf
    obtain ⟨attempts, rfl⟩ := Nat.exists_eq_succ_of_ne_zero (Nat.ne_zero_of_lt hlen)
    refine (next_agrees ht d).bind_ok ?_
    rw [attempt_of_error hd]
    simp only [failed_result]
    exact .pure _
  | @frame used later rest frame pieces e hd _ ih =>
    obtain ⟨attempts, rfl⟩ := Nat.exists_eq_succ_of_ne_zero (Nat.ne_zero_of_lt hlen)
    have hpos := Table.pos_of_decodeFresh ht hd
    rw [List.length_append] at hlen
    rw [← hbuf] at hd
    refine (next_agrees ht d).bind_ok ?_
    rw [attempt_of_ok hd]
    refine (ih (d := { d with buffer := d.buffer.drop used.length, phase := .complete })
      (show later.length < attempts by omega) ?_).bind_ok ?_
    · rw [hbuf, List.drop_left]
    · rw [drained, drained, ← failed_phase (d := { d with buffer := rest }) .complete]
      exact .pure _

/-- Draining finds what the buffer yields. -/
theorem drain_agrees (ht : t.HasTextFormats) (h : t.Yields d.buffer pieces e rest) :
    Agrees t.Remembers (d.drain t) (.ok (d.drained pieces e rest)) :=
  drainWithin_agrees ht h (Nat.lt_succ_self _) rfl

end StreamDecoder

end DeferredLog
