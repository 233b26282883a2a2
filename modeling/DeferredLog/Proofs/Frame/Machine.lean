import DeferredLog.Proofs.Frame.Draining

/-!
# The state machine of a decoder

A decoder moves between its phases by triggers, and a trigger is illegal in a phase that it does not
lead out of. Here each operation is written with the triggers that it pulls, in their order, an
illegal one being an outcome of its own. No operation ever pulls an illegal one, from whatever phase
it starts, since all of them rearm the decoder first or last:

    d.nextByTriggers t = ExceptT.lift (d.next t)                              (nextByTriggers_eq)
-/

namespace DeferredLog

/-- A trigger in a phase that it does not lead out of. -/
structure IllegalTrigger where
  phase : Phase
  trigger : Trigger
  deriving DecidableEq, Repr

/-- Computations in which a trigger may turn out to be illegal. -/
abbrev Triggering (α : Type) := ExceptT IllegalTrigger Cached α

namespace StreamDecoder

/-! ## Operations by their triggers -/

/-- Pulls a trigger. -/
def fire (trigger : Trigger) (d : StreamDecoder) : Except IllegalTrigger StreamDecoder :=
  match d.trigger? trigger with
  | some d => .ok d
  | none => .error ⟨d.phase, trigger⟩

/-- What an attempt leads to that meets a fault. -/
def failByTriggers (e : Fault) (d : StreamDecoder) : Except IllegalTrigger Attempt := do
  if e.kind = .starved then
    let d ← d.fire .starve
    pure ⟨.error e, d, []⟩
  else if e.isDecodingFault then
    let d ← d.fire .fail
    pure ⟨.error e, d, [d.faultRecord e]⟩
  else pure ⟨.error e, d, []⟩

/-- An attempt to decode the frame at the front of the buffer. -/
def nextByTriggers (t : Table) (d : StreamDecoder) : Triggering Attempt := do
  let d ← d.fire .rearm
  match (Cursor.start d.buffer).uleb128 with
  | .error e => d.failByTriggers e
  | .ok (index, c) => do
    let d ← d.fire .indexRead
    match ← ExceptT.lift (Cached.attempt (Frame.decodeBody t t.format index c)) with
    | .error e => d.failByTriggers e
    | .ok (frame, c) => do
      let d ← d.fire .argumentsRead
      pure ⟨.ok frame, { d with buffer := c.rest }, []⟩

/-- Up to `attempts` attempts, until one yields no frame. -/
def drainByTriggers (t : Table) : Nat → StreamDecoder → Triggering Drained
  | 0, d => pure ⟨[], none, d, []⟩
  | attempts + 1, d => do
    let a ← d.nextByTriggers t
    match a.result with
    | .error e => pure ⟨[], if e.kind = .starved then none else some e, a.decoder, a.records⟩
    | .ok frame =>
      let rest ← drainByTriggers t attempts a.decoder
      pure { rest with frames := frame :: rest.frames, records := a.records ++ rest.records }

/-- Discards bytes from the front. -/
def skipByTriggers (count : Int) (d : StreamDecoder) : Except IllegalTrigger StreamDecoder :=
  ({ d with buffer := (d.skip count).buffer } : StreamDecoder).fire .rearm

/-- Discards all bytes. -/
def resetByTriggers (d : StreamDecoder) : Except IllegalTrigger StreamDecoder :=
  ({ d with buffer := [] } : StreamDecoder).fire .rearm

/-! ## Every trigger is legal -/

variable {t : Table} {d : StreamDecoder}

theorem fire_rearm : d.fire .rearm = .ok { d with phase := .awaitingIndex } := by
  unfold fire trigger?
  cases d.phase <;> rfl

/-- A fault may be met wherever an attempt is under way. -/
theorem failByTriggers_eq {phase : Phase} (h : phase = .awaitingIndex ∨ phase = .awaitingArguments)
    (e : Fault) : failByTriggers e { d with phase } = .ok (d.failed phase e) := by
  unfold failByTriggers failed
  split
  · rcases h with rfl | rfl <;> rfl
  · split
    · rcases h with rfl | rfl <;> rfl
    · rfl

theorem liftM_ok_bind {α β : Type} (a : α) (f : α → Triggering β) :
    ((liftM (.ok a : Except IllegalTrigger α) : Triggering α) >>= f) = f a := rfl

theorem lift_bind {α β : Type} (x : Cached α) (f : α → Cached β) :
    ExceptT.lift (x >>= f) = (ExceptT.lift x >>= fun a => ExceptT.lift (f a) : Triggering β) := by
  funext cache
  show EStateM.bind (EStateM.bind x f) _ cache = EStateM.bind (EStateM.bind x _) _ cache
  simp only [EStateM.bind]
  cases x cache <;> rfl

theorem nextByTriggers_eq (t : Table) (d : StreamDecoder) :
    d.nextByTriggers t = ExceptT.lift (d.next t) := by
  unfold nextByTriggers next
  rw [fire_rearm, liftM_ok_bind]
  cases (Cursor.start d.buffer).uleb128 with
  | error e =>
    show (liftM (failByTriggers e { d with phase := .awaitingIndex }) : Triggering Attempt) = _
    rw [failByTriggers_eq (.inl rfl)]
    rfl
  | ok p =>
    obtain ⟨index, c⟩ := p
    show (ExceptT.lift (Cached.attempt (Frame.decodeBody t t.format index c)) >>= _) = _
    rw [lift_bind]
    refine bind_congr fun r => ?_
    cases r with
    | error e =>
      show (liftM (failByTriggers e { d with phase := .awaitingArguments }) : Triggering Attempt) = _
      rw [failByTriggers_eq (.inr rfl)]
      rfl
    | ok p => rfl

theorem drainByTriggers_eq (t : Table) (attempts : Nat) (d : StreamDecoder) :
    drainByTriggers t attempts d = ExceptT.lift (drainWithin t attempts d) := by
  induction attempts generalizing d with
  | zero => rfl
  | succ attempts ih =>
    unfold drainByTriggers drainWithin
    rw [nextByTriggers_eq, lift_bind]
    refine bind_congr fun a => ?_
    cases a.result with
    | error e => rfl
    | ok frame =>
      simp only [ih, lift_bind]
      rfl

theorem skipByTriggers_eq (count : Int) (d : StreamDecoder) :
    d.skipByTriggers count = .ok (d.skip count) := fire_rearm

theorem resetByTriggers_eq (d : StreamDecoder) : d.resetByTriggers = .ok d.reset := fire_rearm

end StreamDecoder

end DeferredLog
