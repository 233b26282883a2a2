import DeferredLog.Proofs.Display.Memory
import DeferredLog.Proofs.Frame.Operations
import DeferredLog.Proofs.Table.History

/-!
# Sharing a table

One table serves any number of stream decoders and of callers that look up formats, check the table,
decode single frames and show frames, in any order, and remembers formats for all of them. Nobody can
tell: every action has the outcome that it has on a table that remembers nothing, and every decoder
behaves as if it were alone (`run_transparent`).
-/

namespace DeferredLog

open Cached (Agrees)

/-! ## Actions -/

/-- What a caller asks of a table. -/
inductive Query where
  | format (index : Int)
  | formatAll
  | check
  | decode (data : List UInt8)
  | message (frame : Frame)
  | timestampText (frame : Frame)
  | line (options : LineOptions) (frame : Frame)
  | logRecord (logger : String) (threshold : Int) (frame : Frame)

/-- What a caller is told. -/
inductive Answer where
  | format (f : FormatString)
  | parsed
  | report (text : String)
  | frame (frame : Frame) (size : Nat)
  | text (s : String)
  | timestamp (s : Option String)
  | record (r : Option Frame.LogRecord)

/-- Answers a query with the formats that the table remembers. -/
def Query.ask (t : Table) : Query → Cached Answer
  | format index => .format <$> t.formatAt index
  | formatAll => (fun _ => .parsed) <$> t.formatAll
  | check => .report <$> t.check
  | decode data => (fun p => .frame p.1 p.2) <$> Frame.decodeBytes t t.format data
  | message frame => .text <$> frame.message t.format
  | timestampText frame => .timestamp <$> frame.timestampText t t.format
  | line options frame => .text <$> frame.line t t.format options
  | logRecord logger threshold frame => .record <$> frame.logRecord? t t.format logger threshold

namespace Sharing

/-- What is done with a table that decoders share. -/
inductive Action where
  | ask (query : Query)
  /-- An operation of one of the decoders. -/
  | use (decoder : Nat) (op : StreamDecoder.Operation)

/-- What comes of it. -/
inductive Event where
  | answered (result : Except Fault Answer)
  | used (decoder : Nat) (outcome : StreamDecoder.Outcome)

/-- The operation of the decoder `k`, if the action is one. -/
def Action.of? (k : Nat) : Action → Option StreamDecoder.Operation
  | ask _ => none
  | use decoder op => if decoder = k then some op else none

/-- The outcome for the decoder `k`, if the event is one. -/
def Event.of? (k : Nat) : Event → Option StreamDecoder.Outcome
  | answered _ => none
  | used decoder outcome => if decoder = k then some outcome else none

/-- Does one thing. -/
def perform (t : Table) (action : Action) (decoders : Nat → StreamDecoder) :
    Cached (Event × (Nat → StreamDecoder)) :=
  match action with
  | .ask query => do
    let result ← Cached.attempt (query.ask t)
    pure (.answered result, decoders)
  | .use k op => do
    let (outcome, d) ← (decoders k).perform t op
    pure (.used k outcome, Function.update decoders k d)

/-- Does one thing after the other, on one table. -/
def run (t : Table) : List Action → (Nat → StreamDecoder) →
    Cached (List Event × (Nat → StreamDecoder))
  | [], decoders => pure ([], decoders)
  | action :: actions, decoders => do
    let (event, decoders) ← perform t action decoders
    let (events, decoders) ← run t actions decoders
    pure (event :: events, decoders)

/-- Does one thing after the other, each on a table that remembers nothing. -/
def runFresh (t : Table) : List Action → (Nat → StreamDecoder) →
    Except Fault (List Event × (Nat → StreamDecoder))
  | [], decoders => pure ([], decoders)
  | action :: actions, decoders => do
    let (event, decoders) ← (perform t action decoders).result {}
    let (events, decoders) ← runFresh t actions decoders
    pure (event :: events, decoders)

/-! ## One action -/

theorem map_agrees {α β : Type} {I : FormatCache → Prop} {x : Cached α} {y : Except Fault α}
    (h : Agrees I x y) (f : α → β) : Agrees I (f <$> x) (f <$> y) :=
  .bind h fun _ _ => .pure _

/-- Every query has an answer that does not depend on what the table remembers. -/
theorem ask_agrees (t : Table) (query : Query) : ∃ y, Agrees t.Remembers (query.ask t) y := by
  cases query with
  | format index =>
    obtain ⟨y, hy⟩ := t.formatAt_agrees index
    exact ⟨_, map_agrees hy _⟩
  | formatAll => exact ⟨_, map_agrees t.formatAll_agrees _⟩
  | check => exact ⟨_, map_agrees t.check_agrees _⟩
  | decode data => exact ⟨_, map_agrees (Frame.decodeBytes_agrees t.format_agrees data) _⟩
  | message frame => exact ⟨_, map_agrees (Frame.message_agrees t.format_agrees frame) _⟩
  | timestampText frame => exact ⟨_, map_agrees (Frame.timestampText_agrees t.format_agrees frame) _⟩
  | line options frame => exact ⟨_, map_agrees (Frame.line_agrees t.format_agrees frame options) _⟩
  | logRecord logger threshold frame =>
    exact ⟨_, map_agrees (Frame.logRecord?_agrees t.format_agrees frame logger threshold) _⟩

variable {t : Table} {decoders : Nat → StreamDecoder}

/-- An action has one event, and concerns a decoder only as its own operation does. -/
theorem perform_agrees (ht : t.HasTextFormats) (action : Action) (decoders : Nat → StreamDecoder) :
    ∃ event decoders', Agrees t.Remembers (perform t action decoders) (.ok (event, decoders')) ∧
      ∀ k, (action.of? k = none ∧ event.of? k = none ∧ decoders' k = decoders k) ∨
        ∃ op outcome, action.of? k = some op ∧ event.of? k = some outcome ∧
          Agrees t.Remembers ((decoders k).perform t op) (.ok (outcome, decoders' k)) := by
  cases action with
  | ask query =>
    obtain ⟨y, hy⟩ := ask_agrees t query
    exact ⟨_, _, hy.attempt.bind_ok (.pure _), fun k => .inl ⟨rfl, rfl, rfl⟩⟩
  | use j op =>
    obtain ⟨outcome, d, hop, -⟩ := StreamDecoder.perform_agrees ht op (decoders j)
    refine ⟨_, _, hop.bind_ok (.pure _), fun k => ?_⟩
    by_cases hk : j = k
    · subst hk
      refine .inr ⟨op, outcome, if_pos rfl, if_pos rfl, ?_⟩
      rwa [Function.update_self]
    · refine .inl ⟨if_neg hk, if_neg hk, Function.update_of_ne (Ne.symm hk) _ _⟩

/-! ## Whole runs -/

theorem run_agrees (ht : t.HasTextFormats) (actions : List Action) (decoders : Nat → StreamDecoder) :
    ∃ events decoders', Agrees t.Remembers (run t actions decoders) (.ok (events, decoders')) ∧
      runFresh t actions decoders = .ok (events, decoders') ∧
      ∀ k, Agrees t.Remembers ((decoders k).run t (actions.filterMap (·.of? k)))
        (.ok (events.filterMap (·.of? k), decoders' k)) := by
  induction actions generalizing decoders with
  | nil => exact ⟨[], decoders, .pure _, rfl, fun k => .pure _⟩
  | cons action actions ih =>
    obtain ⟨event, decoders₁, haction, hown⟩ := perform_agrees ht action decoders
    obtain ⟨events, decoders', hrun, hfresh, halone⟩ := ih decoders₁
    refine ⟨event :: events, decoders', haction.bind_ok (hrun.bind_ok (.pure _)), ?_, fun k => ?_⟩
    · rw [runFresh, (haction {} .nothing).1]
      show (runFresh t actions decoders₁ >>= fun r => pure (event :: r.1, r.2)) = _
      rw [hfresh]
      rfl
    · have hrest := halone k
      rcases hown k with ⟨hop, houtcome, hsame⟩ | ⟨op, outcome, hop, houtcome, hperform⟩
      · rw [List.filterMap_cons_none hop, List.filterMap_cons_none houtcome]
        rwa [hsame] at hrest
      · rw [List.filterMap_cons_some hop, List.filterMap_cons_some houtcome]
        exact hperform.bind_ok (hrest.bind_ok (.pure _))

/-- **Remembering cannot be noticed.** Whatever is done with a table, each action has the outcome that
it has on a table that remembers nothing, and each decoder those that it has by itself. At every moment
of every lookup, whatever is remembered is what parsing the entry's format gives, nothing that the entry
leads to is missing, unreadable or on a cycle, and its targets are remembered as well. -/
theorem run_transparent (t : Table) (ht : t.HasTextFormats) (actions : List Action)
    (decoders : Nat → StreamDecoder) (cache : FormatCache) (hc : t.Remembers cache) :
    (∃ events decoders', (run t actions decoders).result cache = .ok (events, decoders') ∧
      runFresh t actions decoders = .ok (events, decoders') ∧
      ∀ k, ((decoders k).run t (actions.filterMap (·.of? k))).result {} =
        .ok (events.filterMap (·.of? k), decoders' k)) ∧
    t.Remembers ((run t actions decoders).cacheAfter cache) ∧
    ∀ before, t.Remembers before → ∀ index,
      (t.moments before index).head? = some ((t.format index).cacheAfter before) ∧
      ∀ now ∈ t.moments before index, ∀ (i : Nat) (f : FormatString), now[i]? = some f →
        t.Formatted i f ∧ t.Grounded i ∧ ∀ j ∈ f.nestedTargets, j ∈ now := by
  obtain ⟨events, decoders', hrun, hfresh, halone⟩ := run_agrees ht actions decoders
  obtain ⟨hresult, hafter⟩ := hrun cache hc
  refine ⟨⟨events, decoders', hresult, hfresh, fun k => (halone k {} .nothing).1⟩, hafter, ?_⟩
  intro before hbefore index
  obtain ⟨-, hends, hsettled⟩ := Table.moments_spec hbefore.settled index
  refine ⟨hends, fun now hnow i f hi => ?_⟩
  have hs := hsettled now hnow
  exact ⟨Table.formatted_of_readAt ht (hs.reads i f hi), (hs.usable i f hi).grounded ht,
    hs.targets i f hi⟩

/-- Two decoders whose operations alternate with queries, some of which fail. -/
def sampleActions : List Action :=
  [.use 0 (.write [1, 7, 2]), .use 1 (.write [9, 9]), .ask (.format 9), .use 0 .decode, .use 1 .decode,
    .ask .check, .use 0 (.write [0xc3, 0xa9, 2, 2, 5, 6, 1, 2]), .use 1 (.skip 1), .use 0 .decode,
    .ask (.message Table.sampleFrame)]

theorem run_sampleActions :
    (runFresh Table.sample sampleActions fun _ => .new none).map Prod.fst =
      .ok [.used 0 .done, .used 1 .done, .answered (.error (.unknownIndex 9)),
        .used 0 (.attempted (.error (.starved 2))), .used 1 (.attempted (.error (.unknownIndex 9))),
        .answered (.ok (.report "")), .used 0 .done, .used 1 .done,
        .used 0 (.attempted (.ok Table.sampleFrame)),
        .answered (.ok (.text "é: [<5>, <6>] 513"))] := by
  cbv

/-- The decoder `0` of the sample run, by itself. -/
theorem run_transparent_sample :
    Table.sample.HasTextFormats ∧ Table.sample.Remembers {} ∧
      ∃ d, ((StreamDecoder.new none).run Table.sample
        [.write [1, 7, 2], .decode, .write [0xc3, 0xa9, 2, 2, 5, 6, 1, 2], .decode]).result {} =
          .ok ([.done, .attempted (.error (.starved 2)), .done,
            .attempted (.ok Table.sampleFrame)], d) := by
  refine ⟨Table.sample_hasTextFormats, .nothing, ?_⟩
  obtain ⟨⟨events, decoders, -, hfresh, halone⟩, -⟩ := run_transparent Table.sample
    Table.sample_hasTextFormats sampleActions (fun _ => .new none) {} .nothing
  have hevents := run_sampleActions
  rw [hfresh] at hevents
  obtain rfl : events = _ := Except.ok.inj hevents
  exact ⟨decoders 0, halone 0⟩

end Sharing

end DeferredLog
