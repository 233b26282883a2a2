import DeferredLog.Dwarf.Form

/-!
# Location expressions

Where a variable lives, as operations of a stack machine. A variable at a fixed address pushes that
address. No operation has to be executed to find it, but the ones beside it have to be passed over:
`operandTable` says what stands behind the opcodes of the standard up to version 5, and behind those that
compilers used ahead of it. An expression with any other opcode, or with an operand cut short, is malformed
and taken to hold no address. An expression that is an operand itself is passed over without looking into it.
-/

namespace DeferredLog.Dwarf

open Reading

/-! ## Operands -/

/-- How an operand is written. -/
inductive OperandForm where
  /-- A number or an offset of that many bytes. -/
  | fixed (size : Nat)
  /-- A number in groups of seven bits, signed or not. -/
  | grouped
  /-- Bytes behind their number, which is in groups of seven bits. -/
  | block
  /-- Bytes behind their number, which is one byte. -/
  | shortBlock
  deriving DecidableEq, Repr

/-- Passes over an operand. -/
def OperandForm.skip : OperandForm → Reading Unit
  | fixed size => do
    let _ ← bytes size
  | grouped => do
    let _ ← unsigned
  | block => do
    let size ← unsigned
    let _ ← bytes size
  | shortBlock => do
    let size ← byte
    let _ ← bytes size

/-- Opcodes, and the operands behind them; only the operation that pushes an address is left out. -/
def operandTable : List (List Nat × List OperandForm) :=
  [ -- the stack and the program
    ([0x06, 0x12, 0x13, 0x14, 0x16, 0x17, 0x18, 0x96, 0x97, 0x9b, 0x9c, 0x9f, 0xe0, 0xf0], []),
    ([0x15, 0x94, 0x95], [.fixed 1]),
    ([0x28, 0x2f, 0x98], [.fixed 2]),
    ([0x99], [.fixed 4]),
    ([0x9a, 0xfa], [.fixed offsetSize]),
    -- arithmetic and comparisons
    ([0x19, 0x1a, 0x1b, 0x1c, 0x1d, 0x1e, 0x1f, 0x20, 0x21, 0x22, 0x24, 0x25, 0x26, 0x27], []),
    ([0x29, 0x2a, 0x2b, 0x2c, 0x2d, 0x2e], []),
    ([0x23], [.grouped]),
    -- constants
    (List.range' 0x30 32, []),
    ([0x08, 0x09], [.fixed 1]),
    ([0x0a, 0x0b], [.fixed 2]),
    ([0x0c, 0x0d], [.fixed 4]),
    ([0x0e, 0x0f], [.fixed 8]),
    ([0x10, 0x11, 0xa1, 0xa2], [.grouped]),
    -- registers, and what lies at an offset from one
    (List.range' 0x50 32, []),
    (List.range' 0x70 32, [.grouped]),
    ([0x90, 0x91], [.grouped]),
    ([0x92], [.grouped, .grouped]),
    -- pieces, values and pointers that have no place
    ([0x93], [.grouped]),
    ([0x9d], [.grouped, .grouped]),
    ([0x9e], [.block]),
    ([0xa0, 0xf2], [.fixed offsetSize, .grouped]),
    ([0xa3, 0xf3], [.block]),
    -- values of a type
    ([0xa4, 0xf4], [.grouped, .shortBlock]),
    ([0xa5, 0xf5], [.grouped, .grouped]),
    ([0xa6, 0xa7, 0xf6], [.fixed 1, .grouped]),
    ([0xa8, 0xa9, 0xf7], [.grouped]) ]

/-- The operands behind an opcode. -/
def operandForms? (opcode : Nat) : Option (List OperandForm) :=
  (operandTable.find? fun row => row.1.contains opcode).map Prod.snd

/-! ## Operations -/

/-- An operation of a location expression. -/
inductive Operation where
  | address (n : Nat)
  /-- An operation that pushes no address, whatever its operands. -/
  | other (opcode : Nat)
  deriving DecidableEq, Repr

/-- The opcode of the operation that pushes an address. -/
def addressOpcode : Nat := 0x03

/-- The operation with an opcode, behind which its operands stand. -/
def operationOf (e : Encoding) (opcode : Nat) : Reading Operation :=
  if opcode = addressOpcode then .address <$> number e.order e.addressSize
  else do
    let forms ← operandForms? opcode
    forms.forM OperandForm.skip
    pure (.other opcode)

/-- An operation. -/
def operation (e : Encoding) : Reading Operation := do
  let opcode ← byte
  operationOf e opcode

/-- The address that an operation pushes. -/
def Operation.address? : Operation → Option Nat
  | address n => some n
  | other _ => none

/-- The first address in an expression. -/
def expressionAddress? (e : Encoding) (expression : List UInt8) : Option Nat :=
  ((operation e).all? expression).bind (·.findSome? Operation.address?)

/-- The address in a location of some form. -/
def locationAddress? (e : Encoding) (form : Form) (location : Value) : Option Nat :=
  match location with
  | .block expression => if form.isExpression then expressionAddress? e expression else none
  | _ => none

end DeferredLog.Dwarf
