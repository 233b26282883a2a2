import DeferredLog.Text.Numeral

/-!
# UTF-8

Decoding as an automaton over the bytes: between characters it is idle, inside a sequence it knows
which range the next continuation byte must lie in. A fault covers the longest well-formed beginning
of a sequence. `decode` stops at the first fault, `decodeLossy` writes U+FFFD for each fault and goes
on with the byte that caused it.
-/

namespace DeferredLog.Text.Utf8

/-! ## Faults -/

/-- Why bytes are not UTF-8. -/
inductive Reason where
  | invalidStart
  | invalidContinuation
  | unexpectedEnd
  deriving DecidableEq, Repr

/-- The wording of a reason. -/
def Reason.message : Reason → String
  | .invalidStart => "invalid start byte"
  | .invalidContinuation => "invalid continuation byte"
  | .unexpectedEnd => "unexpected end of data"

/-- The bytes `start, …, start + count - 1` are no character; `lead` is the first of them. -/
structure Fault where
  start : Nat
  lead : UInt8
  count : Nat
  reason : Reason
  deriving DecidableEq, Repr

/-- The wording of a fault; a single byte is shown, several are named by their positions. -/
def Fault.message (f : Fault) : String :=
  if f.count = 1 then
    s!"'utf-8' codec can't decode byte 0x{hexPadded 2 f.lead.toNat} in position {f.start}: {f.reason.message}"
  else
    s!"'utf-8' codec can't decode bytes in position {f.start}-{f.start + f.count - 1}: {f.reason.message}"

/-! ## The automaton -/

/-- An unfinished sequence: `need` more bytes, the next one in `low … high`; `bits` holds the value
read so far from `taken` bytes, the first of which is `lead`. -/
structure Pending where
  need : Nat
  low : Nat
  high : Nat
  bits : Nat
  lead : UInt8
  taken : Nat

/-- What a byte that starts a character leads to. -/
inductive Begun where
  | char (c : Char)
  | pending (p : Pending)
  | invalid

/-- Reads a byte between characters. The first continuation byte after E0, ED, F0 and F4 has a
narrower range, which keeps out overlong forms, surrogates and values beyond U+10FFFF. -/
def Begun.ofByte (b : UInt8) : Begun :=
  let n := b.toNat
  if n < 0x80 then .char (Char.ofNat n)
  else if n < 0xc2 then .invalid
  else if n < 0xe0 then .pending ⟨1, 0x80, 0xbf, n - 0xc0, b, 1⟩
  else if n < 0xf0 then
    .pending ⟨2, if n = 0xe0 then 0xa0 else 0x80, if n = 0xed then 0x9f else 0xbf, n - 0xe0, b, 1⟩
  else if n < 0xf5 then
    .pending ⟨3, if n = 0xf0 then 0x90 else 0x80, if n = 0xf4 then 0x8f else 0xbf, n - 0xf0, b, 1⟩
  else .invalid

/-- Whether a byte continues an unfinished sequence. -/
def Pending.accepts (p : Pending) (b : UInt8) : Bool :=
  p.low ≤ b.toNat && b.toNat ≤ p.high

/-- The value with the six bits of a continuation byte appended. -/
def Pending.extended (p : Pending) (b : UInt8) : Nat := p.bits * 64 + b.toNat % 64

/-- The sequence after a continuation byte that does not end it. -/
def Pending.next (p : Pending) (b : UInt8) : Pending :=
  { need := p.need - 1, low := 0x80, high := 0xbf, bits := p.extended b, lead := p.lead
    taken := p.taken + 1 }

/-- Decodes from position `pos` on; `state` is the unfinished sequence that ends there. -/
def decodeFrom (pos : Nat) : Option Pending → List UInt8 → Except Fault (List Char)
  | none, [] => .ok []
  | some p, [] => .error ⟨pos - p.taken, p.lead, p.taken, .unexpectedEnd⟩
  | none, b :: bs =>
    match Begun.ofByte b with
    | .char c =>
      match decodeFrom (pos + 1) none bs with
      | .ok cs => .ok (c :: cs)
      | .error f => .error f
    | .pending p => decodeFrom (pos + 1) (some p) bs
    | .invalid => .error ⟨pos, b, 1, .invalidStart⟩
  | some p, b :: bs =>
    if p.accepts b then
      if p.need ≤ 1 then
        match decodeFrom (pos + 1) none bs with
        | .ok cs => .ok (Char.ofNat (p.extended b) :: cs)
        | .error f => .error f
      else decodeFrom (pos + 1) (some (p.next b)) bs
    else .error ⟨pos - p.taken, p.lead, p.taken, .invalidContinuation⟩

/-- Strict decoding. -/
def decode (bytes : List UInt8) : Except Fault String :=
  (decodeFrom 0 none bytes).map String.ofList

/-! ## Lossy decoding -/

/-- The character that stands for bytes which are not UTF-8. -/
def replacement : Char := '\uFFFD'

/-- Decoding with U+FFFD for each fault. -/
def lossyChars : Option Pending → List UInt8 → List Char
  | none, [] => []
  | some _, [] => [replacement]
  | state, b :: bs =>
    let fresh (lost : List Char) : List Char :=
      match Begun.ofByte b with
      | .char c => lost ++ c :: lossyChars none bs
      | .pending p => lost ++ lossyChars (some p) bs
      | .invalid => lost ++ replacement :: lossyChars none bs
    match state with
    | none => fresh []
    | some p =>
      if p.accepts b then
        if p.need ≤ 1 then Char.ofNat (p.extended b) :: lossyChars none bs
        else lossyChars (some (p.next b)) bs
      else fresh [replacement]

/-- Decoding that never fails: each fault becomes U+FFFD. -/
def decodeLossy (bytes : List UInt8) : String := String.ofList (lossyChars none bytes)

/-- ASCII, with U+FFFD for every other byte. -/
def decodeAscii (bytes : List UInt8) : String :=
  String.ofList (bytes.map fun b => if b.toNat < 0x80 then Char.ofNat b.toNat else replacement)

/-! ## Encoding -/

/-- The bytes of a text. -/
def encode (s : String) : List UInt8 := s.toList.flatMap String.utf8EncodeChar

end DeferredLog.Text.Utf8
