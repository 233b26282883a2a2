import DeferredLog.Bytes.StringTable
import DeferredLog.Text.Utf8

/-!
# Attribute values of DWARF

The form of an attribute says how its value is written; some forms only hold the offset of a text in a
string table. What is left of the value is a number, a text, a block of bytes, or nothing at all for a
flag whose presence says everything.

Any attribute may have any form. Whatever gives a name can be written out as a text; a reference to an
entry of a list has to be a number.
-/

namespace DeferredLog.Dwarf

open Reading

/-! ## Forms -/

/-- How a value is written. -/
inductive Form where
  | addr | block | block1 | block2 | block4 | data1 | data2 | data4 | data8 | string | strp | lineStrp
  | udata | secOffset | exprloc | flagPresent | loclistx
  deriving DecidableEq, Repr

namespace Form

/-- All forms. -/
def all : List Form :=
  [addr, block, block1, block2, block4, data1, data2, data4, data8, string, strp, lineStrp, udata,
    secOffset, exprloc, flagPresent, loclistx]

/-- The code of a form. -/
def code : Form → Nat
  | addr => 0x01
  | block2 => 0x03
  | block4 => 0x04
  | data2 => 0x05
  | data4 => 0x06
  | data8 => 0x07
  | string => 0x08
  | block => 0x09
  | block1 => 0x0a
  | data1 => 0x0b
  | strp => 0x0e
  | udata => 0x0f
  | secOffset => 0x17
  | exprloc => 0x18
  | flagPresent => 0x19
  | lineStrp => 0x1f
  | loclistx => 0x22

/-- The name of a form in the standard. -/
def name : Form → String
  | addr => "DW_FORM_addr"
  | block => "DW_FORM_block"
  | block1 => "DW_FORM_block1"
  | block2 => "DW_FORM_block2"
  | block4 => "DW_FORM_block4"
  | data1 => "DW_FORM_data1"
  | data2 => "DW_FORM_data2"
  | data4 => "DW_FORM_data4"
  | data8 => "DW_FORM_data8"
  | string => "DW_FORM_string"
  | strp => "DW_FORM_strp"
  | lineStrp => "DW_FORM_line_strp"
  | udata => "DW_FORM_udata"
  | secOffset => "DW_FORM_sec_offset"
  | exprloc => "DW_FORM_exprloc"
  | flagPresent => "DW_FORM_flag_present"
  | loclistx => "DW_FORM_loclistx"

/-- The form with a code. -/
def ofCode? (code : Nat) : Option Form := all.find? (·.code = code)

/-- The form with a name. -/
def ofName? (name : String) : Option Form := all.find? (·.name = name)

/-- Whether a location of this form is an expression, and not the offset of a list of locations. -/
def isExpression : Form → Bool
  | exprloc | block | block1 | block2 | block4 => true
  | _ => false

end Form

/-! ## Values -/

/-- How the numbers of a unit are written. -/
structure Encoding where
  order : ByteOrder
  addressSize : Nat
  deriving DecidableEq, Repr

/-- The tables that texts are kept in. -/
structure Texts where
  strings : StringTable
  lineStrings : StringTable

/-- The value of an attribute. -/
inductive Value where
  | number (n : Nat)
  | text (bytes : List UInt8)
  | block (bytes : List UInt8)
  | flag
  deriving DecidableEq, Repr

namespace Value

/-- The bytes of a block as a list of numbers. -/
def blockText (bytes : List UInt8) : String :=
  let numbers := ", ".intercalate (bytes.map fun b => toString b.toNat)
  s!"[{numbers}]"

/-- The name that a value gives to something. -/
def name : Value → String
  | number n => toString n
  | text bytes => Text.Utf8.decodeLossy bytes
  | block bytes => blockText bytes
  | flag => "True"

/-- The number that a value is; a flag counts as one. -/
def number? : Value → Option Nat
  | number n => some n
  | flag => some 1
  | text _ | block _ => none

end Value

/-- Size of an offset into another section. -/
def offsetSize : Nat := 4

/-- A block behind its length. -/
def blockAfter (length : Reading Nat) : Reading Value := do
  let size ← length
  .block <$> bytes size

/-- The text of a table at an offset. -/
def textIn (order : ByteOrder) (table : StringTable) : Reading Value := do
  let offset ← number order offsetSize
  let text ← table.get? offset
  pure (.text text)

/-- A value of a form. -/
def Form.value (e : Encoding) (texts : Texts) : Form → Reading Value
  | addr => .number <$> number e.order e.addressSize
  | data1 => .number <$> byte
  | data2 => .number <$> number e.order 2
  | data4 => .number <$> number e.order 4
  | data8 => .number <$> number e.order 8
  | secOffset => .number <$> number e.order offsetSize
  | udata | loclistx => .number <$> unsigned
  | string => .text <$> text
  | strp => textIn e.order texts.strings
  | lineStrp => textIn e.order texts.lineStrings
  | block1 => blockAfter byte
  | block2 => blockAfter (number e.order 2)
  | block4 => blockAfter (number e.order 4)
  | block | exprloc => blockAfter unsigned
  | flagPresent => pure .flag

end DeferredLog.Dwarf
