import DeferredLog.Display.Value
import DeferredLog.Wire.Argument

/-!
# Frames

A frame on the wire is the index of a log statement, the arguments of the table's timestamp format if
there is one, and the arguments of the log statement. Frames are not delimited: the table alone says
how many bytes each one takes.
-/

namespace DeferredLog

/-- A decoded log event. -/
structure Frame where
  entry : Entry
  level : Level
  timestamp : List Value
  args : List Value

namespace Frame

section
variable {m : Type → Type} [Monad m] [MonadExceptOf Fault m]

/-! ## Decoding -/

/-- The log statement at an index. -/
def statement (t : Table) (index : Nat) : Except Fault (Entry × Level) :=
  match t.lookup index with
  | .error e => .error e
  | .ok entry =>
    match entry.level with
    | some level => .ok (entry, level)
    | none => .error (.notLogStatement index entry.format)

/-- Reads the timestamp of a frame. -/
def decodeTimestamp (t : Table) (formats : Nat → m FormatString) (c : Cursor) :
    m (List Value × Cursor) :=
  match t.timestamp with
  | none => pure ([], c)
  | some index => do
    let f ← formats index
    Wire.decodeArguments t formats 0 f c

/-- Reads everything that follows the index of a frame. -/
def decodeBody (t : Table) (formats : Nat → m FormatString) (index : Nat) (c : Cursor) :
    m (Frame × Cursor) := do
  let (entry, level) ← Fault.lift (statement t index)
  let (timestamp, c) ← decodeTimestamp t formats c
  let f ← formats index
  let (args, c) ← Wire.decodeArguments t formats 0 f c
  pure (⟨entry, level, timestamp, args⟩, c)

/-- Reads a frame. -/
def decode (t : Table) (formats : Nat → m FormatString) (c : Cursor) : m (Frame × Cursor) := do
  let (index, c) ← Fault.lift c.uleb128
  decodeBody t formats index c

/-- The frame at the start of some bytes, and the number of bytes that it takes. -/
def decodeBytes (t : Table) (formats : Nat → m FormatString) (data : List UInt8) :
    m (Frame × Nat) := do
  let (frame, c) ← decode t formats (Cursor.start data)
  pure (frame, c.offset)

/-! ## Text -/

/-- The text of the log statement. -/
def message (formats : Nat → m FormatString) (frame : Frame) : m String := do
  let f ← formats frame.entry.index
  let cs ← Display.render formats f frame.args none
  pure (String.ofList cs)

/-- The text of the timestamp, if the table has a timestamp format. -/
def timestampText (t : Table) (formats : Nat → m FormatString) (frame : Frame) :
    m (Option String) :=
  match t.timestamp with
  | none => pure none
  | some index => do
    let f ← formats index
    let cs ← Display.render formats f frame.timestamp none
    pure (some (String.ofList cs))

end

/-! ## Comparison -/

/-- Equality of frames of one table. -/
def equal (a b : Frame) : Bool :=
  a.entry.index = b.entry.index && Value.equalAll a.timestamp b.timestamp &&
    Value.equalAll a.args b.args

/-- Equality of numbered frames: a frame equals itself, even if it holds a NaN. -/
def equalNumbered (a b : Nat × Frame) : Bool := a.1 = b.1 || a.2.equal b.2

end Frame

end DeferredLog
