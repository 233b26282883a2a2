import Mathlib
import DeferredLog.Proofs.Wire.Halting
import DeferredLog.Proofs.Wire.Nesting

/-!
# The limit of nesting

How deep values may nest is the only thing that two tables with the same entries can differ in while a
frame is decoded. The limit is exact: the bytes of a frame are decoded alike under every limit that its
values do not exceed, and refused under every other. It is also what makes decoding halt.

    the limit is exact, no frame exceeds it, and decoding halts                     (nesting_limit)
-/

namespace DeferredLog

namespace Frame

/-- How deep the values of a frame nest. -/
def nesting (frame : Frame) : Nat := max (Value.nestingAll frame.timestamp) (Value.nestingAll frame.args)

/-! ## A lower limit -/

section
variable {t : Table} {limit higher : Nat} (hle : limit ≤ higher)

include hle

theorem entryArguments_cuts (index : Nat) :
    Cuts (fun vs => Value.nestingAll vs ≤ limit) (.value (.tooDeep limit))
      (entryArguments (t.withLimit higher) t.freshFormat index)
      (entryArguments (t.withLimit limit) t.freshFormat index) :=
  .found fun f => Wire.decodeArguments_cuts hle 0 f

theorem decodeTimestamp_cuts :
    Cuts (fun vs => Value.nestingAll vs ≤ limit) (.value (.tooDeep limit))
      (decodeTimestamp (t.withLimit higher) t.freshFormat)
      (decodeTimestamp (t.withLimit limit) t.freshFormat) := by
  cases ht : t.timestamp with
  | none =>
    have hnone (d : Nat) : decodeTimestamp (t.withLimit d) t.freshFormat = fun c => .ok ([], c) :=
      decodeTimestamp_of_none ht
    rw [hnone, hnone]
    exact .pure (Nat.zero_le _)
  | some index =>
    have hsome (d : Nat) : decodeTimestamp (t.withLimit d) t.freshFormat =
        entryArguments (t.withLimit d) t.freshFormat index := decodeTimestamp_of_some ht
    rw [hsome, hsome]
    exact entryArguments_cuts hle index

theorem decodeBody_cuts (index : Nat) :
    Cuts (fun frame => frame.nesting ≤ limit) (.value (.tooDeep limit))
      (decodeBody (t.withLimit higher) t.freshFormat index)
      (decodeBody (t.withLimit limit) t.freshFormat index) := by
  have hbody (d : Nat) : decodeBody (t.withLimit d) t.freshFormat index = fun c =>
      statement t index >>= fun s => decodeTimestamp (t.withLimit d) t.freshFormat c >>= fun p =>
        entryArguments (t.withLimit d) t.freshFormat index p.2 >>= fun q =>
          .ok (⟨s.1, s.2, p.1, q.1⟩, q.2) := funext decodeBody_eq
  rw [hbody, hbody]
  refine .found fun s => ?_
  exact (decodeTimestamp_cuts hle).both (g := Frame.mk s.1 s.2) (fun _ => entryArguments_cuts hle index)
    (fun _ _ => Nat.max_le) (fun _ => rfl) fun _ => rfl

theorem decode_cuts :
    Cuts (fun frame => frame.nesting ≤ limit) (.value (.tooDeep limit))
      (decode (t.withLimit higher) t.freshFormat) (decode (t.withLimit limit) t.freshFormat) :=
  .after (decodeBody_cuts hle) decode_eq decode_eq

end

/-! ## Halting -/

section
variable {m : Type → Type} [Monad m] [MonadExceptOf Fault m]

/-- Reading the timestamp, with any way to read the arguments of an entry. -/
def timestampFrom (t : Table) (read : Nat → Cursor → m (List Value × Cursor)) (c : Cursor) :
    m (List Value × Cursor) :=
  match t.timestamp with
  | none => pure ([], c)
  | some index => read index c

/-- Decoding a frame, with any way to read the arguments of an entry. -/
def decodeFrom (t : Table) (read : Nat → Cursor → m (List Value × Cursor)) (data : List UInt8) :
    m (Frame × Nat) := do
  let (index, c) ← Fault.lift (Cursor.start data).uleb128
  let (entry, level) ← Fault.lift (statement t index)
  let (timestamp, c) ← timestampFrom t read c
  let (args, c) ← read index c
  pure (⟨entry, level, timestamp, args⟩, c.offset)

end

/-- The arguments of an entry, with up to `calls` calls inside one another. -/
def entryArgumentsWithin (t : Table) (calls index : Nat) (c : Cursor) : Running (List Value × Cursor) := do
  let f ← Fault.lift (t.freshFormat index)
  Wire.arguments t (Wire.nestedWithin t t.freshFormat calls 0) f.arguments c

/-- Decoding a frame, with up to `calls` calls inside one another. -/
def decodeWithin (t : Table) (calls : Nat) (data : List UInt8) : Running (Frame × Nat) :=
  decodeFrom t (entryArgumentsWithin t calls) data

variable {t : Table}

theorem decodeFrom_rel {m n : Type → Type} [Monad m] [MonadExceptOf Fault m] [Monad n]
    [MonadExceptOf Fault n] (R : Transfer m n) {read : Nat → Cursor → m (List Value × Cursor)}
    {read' : Nat → Cursor → n (List Value × Cursor)} (h : ∀ index c, R.rel (read index c) (read' index c))
    (data : List UInt8) : R.rel (decodeFrom t read data) (decodeFrom t read' data) := by
  have htimestamp (c : Cursor) : R.rel (timestampFrom t read c) (timestampFrom t read' c) := by
    unfold timestampFrom
    split
    · exact R.rel_pure _
    · exact h _ c
  refine R.rel_bind (R.lift _) fun ⟨index, c⟩ => R.rel_bind (R.lift _) fun ⟨entry, level⟩ => ?_
  exact R.rel_bind (htimestamp c) fun ⟨timestamp, c⟩ => R.rel_bind (h index c) fun ⟨args, c⟩ => R.rel_pure _

theorem decodeFrom_entryArguments (data : List UInt8) :
    decodeFrom t (entryArguments t t.freshFormat) data = t.decodeFresh data := by
  have hdecode : t.decodeFresh data = (Cursor.start data).uleb128 >>= fun p => statement t p.1 >>= fun s =>
      decodeTimestamp t t.freshFormat p.2 >>= fun q => entryArguments t t.freshFormat p.1 q.2 >>= fun r =>
        .ok (⟨s.1, s.2, q.1, r.1⟩, r.2.offset) := by
    rw [Table.decodeFresh_eq_bind, decode_eq]
    simp only [decodeBody_eq, bind_assoc]
    rfl
  rw [hdecode, decodeFrom]
  simp only [Fault.lift_eq_self]
  rfl

theorem entryArgumentsWithin_ended {calls : Nat} (h : t.maxDepth < calls) (index : Nat) (c : Cursor) :
    Running.ended.rel (entryArgumentsWithin t calls index c) (entryArguments t t.freshFormat index c) :=
  Running.ended.rel_bind (Running.lift_ended _) fun f =>
    Running.ended.arguments (Wire.nestedWithin_eq_some (Nat.zero_le _) h) f.arguments c

/-- One call more than there may be levels is enough. -/
theorem decodeWithin_eq_some {calls : Nat} (h : t.maxDepth < calls) (data : List UInt8) :
    (decodeWithin t calls data).run = some (t.decodeFresh data) := by
  rw [← decodeFrom_entryArguments]
  exact decodeFrom_rel Running.ended (entryArgumentsWithin_ended h) data

end Frame

/-! ## The limit -/

namespace Table

variable {t : Table} {data : List UInt8} {frame : Frame} {n limit higher : Nat}

/-- Under a lower limit there is the same frame, or a fault if its values nest deeper. -/
theorem decodeFresh_withLimit (hle : limit ≤ higher)
    (h : (t.withLimit higher).decodeFresh data = .ok (frame, n)) :
    (frame.nesting ≤ limit → (t.withLimit limit).decodeFresh data = .ok (frame, n)) ∧
      (¬ frame.nesting ≤ limit →
        (t.withLimit limit).decodeFresh data = .error (.value (.tooDeep limit))) := by
  rw [decodeFresh_eq_bind, freshFormat_withLimit] at h ⊢
  cases hd : Frame.decode (t.withLimit higher) t.freshFormat ⟨data, 0, 0⟩ with
  | error e =>
    rw [hd] at h
    cases h
  | ok p =>
    rw [hd] at h
    obtain ⟨rfl, rfl⟩ := Prod.mk.inj (Except.ok.inj h)
    obtain ⟨hkept, hcut⟩ := Frame.decode_cuts hle ⟨data, 0, 0⟩ p.1 p.2 hd
    exact ⟨fun hn => by rw [hkept hn]; rfl, fun hn => by rw [hcut hn]; rfl⟩

theorem nesting_le_of_carries {index : Nat} {vs : List Value} (h : t.Carries index vs) :
    Value.nestingAll vs ≤ t.maxDepth := by
  obtain ⟨f, -, -, hlevels⟩ := h
  exact hlevels

/-- No frame exceeds the limit. -/
theorem nesting_le_of_decodeFresh (h : t.decodeFresh data = .ok (frame, n)) :
    frame.nesting ≤ t.maxDepth := by
  have hframe := conforms_of_decodeFresh h
  have hstamp := hframe.timestamp
  refine Nat.max_le.mpr ⟨?_, nesting_le_of_carries hframe.args⟩
  cases ht : t.timestamp with
  | none =>
    rw [ht] at hstamp
    rw [show frame.timestamp = [] from hstamp]
    exact Nat.zero_le _
  | some index =>
    rw [ht] at hstamp
    exact nesting_le_of_carries hstamp

/-- **The limit of nesting.** A frame that is decoded under one limit is decoded alike under each lower
limit that its values do not exceed, and refused under the others. No frame exceeds the limit of its
table. Decoding halts: more calls than the limit allows are never inside one another. And a table with
another limit is what the same entries make under that limit. The tables may remember any formats. -/
theorem nesting_limit (t : Table) :
    (∀ limit higher cache later data frame n, limit ≤ higher →
      (t.withLimit higher).Remembers cache → (t.withLimit limit).Remembers later →
      (t.withLimit higher).decode cache data = .ok (frame, n) →
      (frame.nesting ≤ limit → (t.withLimit limit).decode later data = .ok (frame, n)) ∧
      (¬ frame.nesting ≤ limit →
        (t.withLimit limit).decode later data = .error (.value (.tooDeep limit)))) ∧
    (∀ cache data frame n, t.Remembers cache → t.decode cache data = .ok (frame, n) →
      frame.nesting ≤ t.maxDepth) ∧
    (∀ cache data calls, t.Remembers cache → t.maxDepth < calls →
      (Frame.decodeWithin t calls data).run = some (t.decode cache data)) ∧
    ∀ entries version timestamp maxDepth, ofEntries entries version timestamp maxDepth = .ok t →
      ∀ limit, ofEntries entries version timestamp limit = .ok (t.withLimit limit) := by
  refine ⟨fun limit higher cache later data frame n hle hcache hlater h => ?_,
    fun cache data frame n hcache h => ?_, fun cache data calls hcache hcalls => ?_,
    fun _ _ _ _ h => ofEntries_withLimit h⟩
  · rw [decode_eq_decodeFresh hcache] at h
    rw [decode_eq_decodeFresh hlater]
    exact decodeFresh_withLimit hle h
  · rw [decode_eq_decodeFresh hcache] at h
    exact nesting_le_of_decodeFresh h
  · rw [decode_eq_decodeFresh hcache]
    exact Frame.decodeWithin_eq_some hcalls data

/-- A log statement whose argument may be the statement again. -/
def repeating : Entry := ⟨1, .string "{}", some .info, none, .string "app", "defmt_info"⟩

/-- A table with that statement and an entry at which the repetition may end. -/
def repeatingTable : Table where
  version := "0.2.1"
  maxDepth := 32
  entryMap := (EntryMap.empty.insert repeating).insert sampleElement
  timestamp := none
  timestamp_mem := by simp

/-- A frame of three levels. -/
def repeatedFrame : Frame :=
  ⟨repeating, .info, [], [.nested 1 [.nested 1 [.nested 2 [.integer .u8 5]]]]⟩

theorem decode_repeatedFrame :
    repeatingTable.decode {} [1, 1, 1, 2, 5] = .ok (repeatedFrame, 5) := by cbv

theorem nesting_limit_sample :
    (repeatingTable.withLimit 3).decode {} [1, 1, 1, 2, 5] = .ok (repeatedFrame, 5) ∧
    (repeatingTable.withLimit 2).decode {} [1, 1, 1, 2, 5] = .error (.value (.tooDeep 2)) ∧
    repeatedFrame.nesting ≤ 32 ∧
    (Frame.decodeWithin repeatingTable 33 (List.replicate 100 1)).run =
      some (repeatingTable.decode {} (List.replicate 100 1)) := by
  obtain ⟨hexact, hnone, hhalts, -⟩ := nesting_limit repeatingTable
  have hthree := hexact 3 32 {} {} _ _ _ (by decide) .nothing .nothing decode_repeatedFrame
  have htwo := hexact 2 32 {} {} _ _ _ (by decide) .nothing .nothing decode_repeatedFrame
  exact ⟨hthree.1 (by decide), htwo.2 (by decide), hnone _ _ _ _ .nothing decode_repeatedFrame,
    hhalts {} _ 33 .nothing (by decide)⟩

end Table

end DeferredLog
