import DeferredLog.Proofs.Table.Memory
import DeferredLog.Proofs.Wire.Transfer

/-!
# Decoding with remembered formats

Arguments and frames are decoded with any source of formats. With the formats that a table remembers the
outcome is the one that fresh formats give:

    t.Remembers cache → t.decode cache data = t.decodeFresh data              (decode_eq_decodeFresh)
-/

namespace DeferredLog

open Cached (Agrees)

/-- That a memory does not change outcomes is kept by all that decoding is made of. -/
def Cached.agreement (I : FormatCache → Prop) : Transfer Cached (Except Fault) where
  rel x y := Agrees I x y
  rel_pure := Agrees.pure
  rel_throw := Agrees.throw
  rel_bind hx hf := hx.bind fun a _ => hf a

variable {t : Table}

section
variable {I : FormatCache → Prop} {formats : Nat → Cached FormatString}
  {formats' : Nat → Except Fault FormatString} (hf : ∀ index, Agrees I (formats index) (formats' index))

include hf

theorem Wire.decodeArguments_agrees (depth : Nat) (f : FormatString) (c : Cursor) :
    Agrees I (decodeArguments t formats depth f c) (decodeArguments t formats' depth f c) :=
  (Cached.agreement I).decodeArguments hf depth f c

theorem Frame.decodeBody_agrees (index : Nat) (c : Cursor) :
    Agrees I (decodeBody t formats index c) (decodeBody t formats' index c) :=
  (Cached.agreement I).decodeBody hf index c

theorem Frame.decodeBytes_agrees (data : List UInt8) :
    Agrees I (decodeBytes t formats data) (decodeBytes t formats' data) :=
  (Cached.agreement I).decodeBytes hf data

end

namespace Table

/-- The frame at the start of some bytes and the number of bytes that it takes, as a table finds them
that remembers `cache`. -/
def decode (t : Table) (cache : FormatCache) (data : List UInt8) : Except Fault (Frame × Nat) :=
  (Frame.decodeBytes t t.format data).result cache

/-- The same, as a table finds them that remembers nothing. -/
def decodeFresh (t : Table) (data : List UInt8) : Except Fault (Frame × Nat) :=
  Frame.decodeBytes t t.freshFormat data

theorem decode_eq_decodeFresh {cache : FormatCache} (h : t.Remembers cache) (data : List UInt8) :
    t.decode cache data = t.decodeFresh data :=
  (Frame.decodeBytes_agrees t.format_agrees data cache h).1

end Table

end DeferredLog
