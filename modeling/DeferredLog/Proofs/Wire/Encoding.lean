import DeferredLog.Proofs.Table.Memory
import DeferredLog.Wire.Argument
import Mathlib.Data.List.Forall2

/-!
# The wire encoding

The bytes of a value are a matter of its type: integers and patterns travel as little-endian bytes,
lengths and indices as variable-length numbers without leading zero groups, and a nested value as the
arguments of its entry. A bit field travels as those bytes of its backing integer that its range
touches.

Not every value can travel under a type. `Conforms` lists those that can: numbers are in range,
indices are in the table, their formats can be read, and a format slice has one entry for all of its
elements.
-/

namespace DeferredLog

/-! ## Numbers -/

/-- The lowest `size` bytes of a number, the least significant first. -/
def toLittleEndian : Nat → Nat → List UInt8
  | 0, _ => []
  | size + 1, n => UInt8.ofNat (n % 256) :: toLittleEndian size (n / 256)

@[simp] theorem length_toLittleEndian (size n : Nat) : (toLittleEndian size n).length = size := by
  induction size generalizing n with
  | zero => rfl
  | succ size ih => rw [toLittleEndian, List.length_cons, ih]

theorem littleEndian_toLittleEndian {size n : Nat} (h : n < Nat.pow 256 size) :
    littleEndian (toLittleEndian size n) = n := by
  induction size generalizing n with
  | zero =>
    have : n = 0 := Nat.lt_one_iff.mp h
    rw [this]
    rfl
  | succ size ih =>
    have hdiv : n / 256 < Nat.pow 256 size := Nat.div_lt_of_lt_mul (by rwa [Nat.mul_comm])
    have hbyte : (UInt8.ofNat (n % 256)).toNat = n % 256 :=
      UInt8.toNat_ofNat_of_lt' (show n % 256 < 256 by omega)
    rw [toLittleEndian, littleEndian, hbyte, ih hdiv]
    omega

theorem take_toLittleEndian {count size : Nat} (h : count ≤ size) (n : Nat) :
    (toLittleEndian size n).take count = toLittleEndian count n := by
  induction count generalizing size n with
  | zero => rfl
  | succ count ih =>
    obtain ⟨size, rfl⟩ := Nat.exists_eq_succ_of_ne_zero (show size ≠ 0 by omega)
    rw [toLittleEndian, toLittleEndian, List.take_succ_cons, ih (by omega)]

theorem drop_toLittleEndian (count size n : Nat) :
    (toLittleEndian size n).drop count = toLittleEndian (size - count) (n / Nat.pow 256 count) := by
  induction count generalizing size n with
  | zero => rw [List.drop_zero, Nat.sub_zero, show Nat.pow 256 0 = 1 from rfl, Nat.div_one]
  | succ count ih =>
    cases size with
    | zero => rw [Nat.zero_sub, toLittleEndian, toLittleEndian, List.drop_nil]
    | succ size =>
      rw [toLittleEndian, List.drop_succ_cons, ih, Nat.div_div_eq_div_mul, Nat.add_sub_add_right]
      congr 2
      exact Nat.mul_comm ..

/-- Groups of seven bits, the least significant first, with the top bit set in all but the last byte. -/
def toUleb128 (n : Nat) : List UInt8 :=
  if n < 128 then [UInt8.ofNat n] else UInt8.ofNat (n % 128 + 128) :: toUleb128 (n / 128)
termination_by n
decreasing_by omega

theorem toUleb128_of_lt {n : Nat} (h : n < 128) : toUleb128 n = [UInt8.ofNat n] := by
  rw [toUleb128, if_pos h]

theorem toUleb128_of_le {n : Nat} (h : 128 ≤ n) :
    toUleb128 n = UInt8.ofNat (n % 128 + 128) :: toUleb128 (n / 128) := by
  rw [toUleb128, if_neg (by omega)]

/-- Bytes as a two's complement number has them; the unsigned ones are written alike. -/
def IntType.encode (k : IntType) (n : Int) : List UInt8 :=
  toLittleEndian k.size (n % (Nat.pow 256 k.size : Nat)).toNat

/-- Whether a number is one of an integer type. -/
def IntType.Holds (k : IntType) (n : Int) : Prop :=
  if k.signed then -(Nat.pow 2 (k.bits - 1) : Int) ≤ n ∧ n < (Nat.pow 2 (k.bits - 1) : Nat)
  else 0 ≤ n ∧ n < (Nat.pow 2 k.bits : Nat)

/-- The bytes of the pattern of a number. -/
def FloatValue.encode : FloatValue → List UInt8
  | .f32 pattern => toLittleEndian 4 pattern.toNat
  | .f64 pattern => toLittleEndian 8 pattern.toNat

/-- Bytes with their length in front. -/
def encodeCounted (data : List UInt8) : List UInt8 := toUleb128 data.length ++ data

/-- Those bytes of a backing integer that a range touches. -/
def BitRange.encode (r : BitRange) (n : Nat) : List UInt8 :=
  ((toLittleEndian (r.backing.bits / 8) n).drop r.lowByte).take r.byteCount

/-! ## Values -/

/-- The argument slots of an entry. -/
def Table.slots (t : Table) (index : Nat) : List ArgType :=
  match t.freshFormat index with
  | .ok f => f.arguments
  | .error _ => []

theorem Table.slots_of_ok {t : Table} {index : Nat} {f : FormatString}
    (h : t.freshFormat index = .ok f) : t.slots index = f.arguments := by
  rw [slots, h]

namespace Wire

mutual

/-- The bytes of an argument. -/
def encode (t : Table) : ArgType → Value → List UInt8
  | .integer k, .integer _ n => k.encode n
  | .float _, .float x => x.encode
  | .bool, .bool b => [if b then 1 else 0]
  | .char, .char c => toLittleEndian 4 c.toNat
  | .str, .str s => encodeCounted (Text.Utf8.encode s)
  | .istr, .istr index _ => toUleb128 index
  | .bytes, .bytes data => encodeCounted data
  | .byteArray _, .bytes data => data
  | .bitfield r, .bitfield _ n => r.encode n
  | .format, .nested index args => toUleb128 index ++ encodeAll t (t.slots index) args
  | .formatSlice, .formatSlice none _ => toUleb128 0
  | .formatSlice, .formatSlice (some index) vs =>
    toUleb128 vs.length ++ toUleb128 index ++ encodeElements t (t.slots index) vs
  | .nested tag, .nested _ args => encodeAll t (t.slots tag.index) args
  | _, _ => []

/-- The bytes of arguments in wire order. -/
def encodeAll (t : Table) : List ArgType → List Value → List UInt8
  | type :: types, v :: vs => encode t type v ++ encodeAll t types vs
  | _, _ => []

/-- The bytes of elements whose entry has the slots `types`. -/
def encodeElements (t : Table) (types : List ArgType) : List Value → List UInt8
  | .nested _ args :: vs => encodeAll t types args ++ encodeElements t types vs
  | _ => []

end

@[simp] theorem encodeAll_nil (t : Table) (vs : List Value) : encodeAll t [] vs = [] := by
  cases vs <;> simp only [encodeAll]

@[simp] theorem encodeElements_nil (t : Table) (types : List ArgType) :
    encodeElements t types [] = [] := by
  simp only [encodeElements]

/-- The values that can travel under a type. -/
inductive Conforms (t : Table) : ArgType → Value → Prop
  | integer {k : IntType} {n : Int} : k.Holds n → Conforms t (.integer k) (.integer k n)
  | float (x : FloatValue) : Conforms t (.float x.type) (.float x)
  | bool (b : Bool) : Conforms t .bool (.bool b)
  | char (c : Char) : Conforms t .char (.char c)
  | str {s : String} : (Text.Utf8.encode s).length < Nat.pow 2 70 → Conforms t .str (.str s)
  | istr {index : Nat} {e : Entry} : index < Nat.pow 2 70 → t.lookup index = .ok e →
      Conforms t .istr (.istr index e.format)
  | bytes {data : List UInt8} : data.length < Nat.pow 2 70 → Conforms t .bytes (.bytes data)
  | byteArray (data : List UInt8) : Conforms t (.byteArray data.length) (.bytes data)
  /-- The backing integer has no bits outside the bytes that travel. -/
  | bitfield {r : BitRange} {n : Nat} : n < Nat.pow 256 (r.lowByte + r.byteCount) →
      n % Nat.pow 256 r.lowByte = 0 → Conforms t (.bitfield r) (.bitfield r n)
  | format {index : Nat} {args : List Value} {f : FormatString} : index < Nat.pow 2 70 →
      t.freshFormat index = .ok f → List.Forall₂ (Conforms t) f.arguments args →
      Conforms t .format (.nested index args)
  | noElements : Conforms t .formatSlice (.formatSlice none [])
  | elements {index : Nat} {elements : List (List Value)} {f : FormatString} :
      index < Nat.pow 2 70 → elements ≠ [] → elements.length ≤ maxSliceLength →
      t.freshFormat index = .ok f →
      (∀ args ∈ elements, List.Forall₂ (Conforms t) f.arguments args) →
      Conforms t .formatSlice (.formatSlice (some index) (elements.map (.nested index)))
  | nested {tag : IndexTag} {args : List Value} {f : FormatString} :
      t.freshFormat tag.index = .ok f → List.Forall₂ (Conforms t) f.arguments args →
      Conforms t (.nested tag) (.nested tag.index args)

end Wire

/-! ## Nesting -/

mutual

/-- How many levels of entries lie inside a value, its own one included. -/
def Value.nesting : Value → Nat
  | .nested _ args => Value.nestingAll args + 1
  | .formatSlice _ elements => Value.nestingAll elements
  | .integer .. | .float _ | .bool _ | .char _ | .str _ | .istr .. | .bytes _ | .bitfield .. => 0

/-- The deepest nesting of some values. -/
def Value.nestingAll : List Value → Nat
  | [] => 0
  | v :: vs => max v.nesting (Value.nestingAll vs)

end

end DeferredLog
