import DeferredLog.Table.Formats
import DeferredLog.Value
import DeferredLog.Wire.Cursor

/-!
# Decoding arguments

The wire does not say what it carries: each argument is read as its type says. Integers and floats are
little-endian, lengths and indices are variable-length numbers, and a nested value is the arguments of
its entry's format. Nesting is bounded: `nestedValue` recurses on the levels that are left. A table may allow
any number of levels, which is an idealisation, as there is no limit on recursion besides.

Decoding needs the formats of nested entries and takes them from a source, so that it can run with
remembered formats as well as with fresh ones.
-/

namespace DeferredLog

/-- The greatest number of elements in a format slice. -/
def maxSliceLength : Nat := 65536

/-! ## Values by themselves -/

namespace Wire

/-- Reads an integer. -/
def integer (t : IntType) (c : Cursor) : Except Fault (Value × Cursor) :=
  match c.uint t.size t.signed with
  | .ok (n, c) => .ok (.integer t n, c)
  | .error e => .error e

/-- Reads a floating-point number. -/
def float (t : FloatType) (c : Cursor) : Except Fault (Value × Cursor) :=
  match c.nat t.size with
  | .ok (n, c) =>
    match t with
    | .f32 => .ok (.float (.f32 (UInt32.ofNat n)), c)
    | .f64 => .ok (.float (.f64 (UInt64.ofNat n)), c)
  | .error e => .error e

/-- Reads a truth value, a byte 0 or 1. -/
def bool (c : Cursor) : Except Fault (Value × Cursor) :=
  match c.byte with
  | .ok (b, c) =>
    if 1 < b.toNat then .error (.value (.badBool b.toNat)) else .ok (.bool (b = 1), c)
  | .error e => .error e

/-- Reads a character, a code point in four bytes. -/
def char (c : Cursor) : Except Fault (Value × Cursor) :=
  match c.nat 4 with
  | .ok (code, c) =>
    if code.isValidChar then .ok (.char (Char.ofNat code), c)
    else .error (.value (.badChar code))
  | .error e => .error e

/-- Reads bytes with their length in front. -/
def counted (c : Cursor) : Except Fault (List UInt8 × Cursor) :=
  match c.uleb128 with
  | .ok (length, c) => c.read length
  | .error e => .error e

/-- Reads a text. -/
def str (c : Cursor) : Except Fault (Value × Cursor) :=
  match counted c with
  | .ok (raw, c) =>
    match Text.Utf8.decode raw with
    | .ok s => .ok (.str s, c)
    | .error fault => .error (.value (.badText fault))
  | .error e => .error e

/-- Reads the index of a text of the table. -/
def istr (t : Table) (c : Cursor) : Except Fault (Value × Cursor) :=
  match c.uleb128 with
  | .ok (index, c) =>
    match t.lookup index with
    | .ok e => .ok (.istr index e.format, c)
    | .error e => .error e
  | .error e => .error e

/-- Reads bytes. -/
def bytes (c : Cursor) : Except Fault (Value × Cursor) :=
  match counted c with
  | .ok (raw, c) => .ok (.bytes raw, c)
  | .error e => .error e

/-- Reads a fixed number of bytes. -/
def byteArray (length : Nat) (c : Cursor) : Except Fault (Value × Cursor) :=
  match c.read length with
  | .ok (raw, c) => .ok (.bytes raw, c)
  | .error e => .error e

/-- Reads the bytes of a backing integer that a bit range covers. -/
def bitfield (r : BitRange) (c : Cursor) : Except Fault (Value × Cursor) :=
  match c.nat r.byteCount with
  | .ok (n, c) => .ok (.bitfield r (n * Nat.pow 256 r.lowByte), c)
  | .error e => .error e

/-! ## Nested values -/

section
variable {m : Type → Type} [Monad m] [MonadExceptOf Fault m]

/-- Reads `count` values with one reader. -/
def elements (read : Cursor → m (Value × Cursor)) : Nat → Cursor → m (List Value × Cursor)
  | 0, c => pure ([], c)
  | count + 1, c => do
    let (v, c) ← read c
    let (vs, c) ← elements read count c
    pure (v :: vs, c)

/-- Reads a format slice: a count and, unless it is zero, the index that all elements share. -/
def formatSlice (nested : Nat → Cursor → m (Value × Cursor)) (c : Cursor) : m (Value × Cursor) := do
  let (count, c) ← Fault.lift c.uleb128
  if maxSliceLength < count then throwThe Fault (.value (.longSlice count))
  else if count = 0 then pure (.formatSlice none [], c)
  else
    let (index, c) ← Fault.lift c.uleb128
    let (vs, c) ← elements (nested index) count c
    pure (.formatSlice (some index) vs, c)

/-- Reads a nested value after its index. -/
def indexed (nested : Nat → Cursor → m (Value × Cursor)) (c : Cursor) : m (Value × Cursor) := do
  let (index, c) ← Fault.lift c.uleb128
  nested index c

/-- Reads an argument; `nested` reads the value of an entry. -/
def argument (t : Table) (nested : Nat → Cursor → m (Value × Cursor)) (type : ArgType)
    (c : Cursor) : m (Value × Cursor) :=
  match type with
  | .integer k => Fault.lift (integer k c)
  | .float k => Fault.lift (float k c)
  | .bool => Fault.lift (bool c)
  | .char => Fault.lift (char c)
  | .str => Fault.lift (str c)
  | .istr => Fault.lift (istr t c)
  | .bytes => Fault.lift (bytes c)
  | .byteArray n => Fault.lift (byteArray n c)
  | .bitfield r => Fault.lift (bitfield r c)
  | .format => indexed nested c
  | .formatSlice => formatSlice nested c
  | .nested tag => nested tag.index c

/-- Reads arguments in wire order. -/
def arguments (t : Table) (nested : Nat → Cursor → m (Value × Cursor)) :
    List ArgType → Cursor → m (List Value × Cursor)
  | [], c => pure ([], c)
  | type :: types, c => do
    let (v, c) ← argument t nested type c
    let (vs, c) ← arguments t nested types c
    pure (v :: vs, c)

/-- Reads the value of an entry; `levels` more levels of nesting are allowed. -/
def nestedValue (t : Table) (formats : Nat → m FormatString) :
    Nat → Nat → Cursor → m (Value × Cursor)
  | 0, _, _ => throwThe Fault (.value (.tooDeep t.maxDepth))
  | levels + 1, index, c => do
    let f ← formats index
    let (args, c) ← arguments t (nestedValue t formats levels) f.arguments c
    pure (.nested index args, c)

/-- Reads one argument inside `depth` levels of nesting. -/
def decodeArgument (t : Table) (formats : Nat → m FormatString) (depth : Nat) (type : ArgType)
    (c : Cursor) : m (Value × Cursor) :=
  argument t (nestedValue t formats (t.maxDepth - depth)) type c

/-- Reads the arguments of a format inside `depth` levels of nesting. -/
def decodeArguments (t : Table) (formats : Nat → m FormatString) (depth : Nat) (f : FormatString)
    (c : Cursor) : m (List Value × Cursor) :=
  arguments t (nestedValue t formats (t.maxDepth - depth)) f.arguments c

end

end Wire

end DeferredLog
