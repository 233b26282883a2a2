import DeferredLog.Frame.Basic

/-!
# The structure of frames as text

A description of a frame for whoever debugs a decoder: every value with its type and parts.
-/

namespace DeferredLog

/-- Parts in parentheses; a comma follows a part that stands alone. -/
def tupleText : List String → String
  | [part] => s!"({part},)"
  | parts => "(" ++ ", ".intercalate parts ++ ")"

/-- A truth value. -/
def flagText (b : Bool) : String := if b then "True" else "False"

/-- A number that may be absent. -/
def optionalText : Option Nat → String
  | some n => toString n
  | none => "None"

namespace ArgType

/-- The name of a type's kind, and its short form. -/
def kindText : ArgType → String × String
  | integer _ => ("Integer", "integer")
  | float _ => ("Float", "float")
  | bool => ("Bool", "bool")
  | char => ("Char", "char")
  | str => ("Str", "str")
  | istr => ("IStr", "istr")
  | bytes => ("Bytes", "bytes")
  | byteArray _ => ("ByteArray", "byte_array")
  | format => ("Format", "format")
  | formatSlice => ("FormatSlice", "format_slice")
  | nested _ => ("Nested", "nested")
  | bitfield _ => ("BitField", "bitfield")

/-- The bit range of a type. -/
def rangeText : ArgType → String
  | bitfield r => s!"({r.low}, {r.high})"
  | _ => "None"

/-- The structure of a type. -/
def structureText (t : ArgType) : String :=
  let (kind, word) := t.kindText
  s!"Type(kind=<Kind.{kind}: '{word}'>, name={Text.quoted t.name}, size={t.size}, signed={flagText t.signed}, target={optionalText t.target?}, bits={t.rangeText})"

end ArgType

/-- The type of a floating-point value. -/
def FloatValue.argType (v : FloatValue) : ArgType := .float v.type

namespace Value

mutual

/-- The structure of a value. -/
def structureText : Value → String
  | integer t n => s!"Integer(type={(ArgType.integer t).structureText}, value={n})"
  | float v => s!"Float(type={v.argType.structureText}, value={Json.numberLiteral v.toDouble})"
  | bool b => s!"Bool(value={flagText b})"
  | char c => s!"Char(value={Text.quoted c.toString})"
  | str s => s!"String(value={Text.quoted s})"
  | istr index format => s!"InternedString(index={index}, value={format.literal})"
  | bytes bs => s!"Bytes(value={Text.quotedBytes bs})"
  | nested index args => s!"Nested(index={index}, args={tupleText (structureTexts args)})"
  | formatSlice index vs =>
    s!"FormatSlice(index={optionalText index}, elements={tupleText (structureTexts vs)})"
  | bitfield r n => s!"BitField(type={(ArgType.bitfield r).structureText}, value={n})"

/-- The structures of values. -/
def structureTexts : List Value → List String
  | [] => []
  | v :: vs => structureText v :: structureTexts vs

end

end Value

/-- The structure of a frame. -/
def Frame.structureText (frame : Frame) : String :=
  let timestamp := tupleText (Value.structureTexts frame.timestamp)
  let args := tupleText (Value.structureTexts frame.args)
  s!"Frame(index={frame.entry.index}, level={frame.level.rank}, timestamp={timestamp}, args={args})"

end DeferredLog
