import Mathlib
import DeferredLog.Proofs.Wire.Conformance

/-!
# Decoded values fit their formats

`Fits` is the typing of values by recursion on them: a value has the variant that its type asks for and
lies in the domain of the type, a nested value belongs to an entry of the table whose slots its arguments
fit in turn, and the elements of a slice belong to one entry. Values that can travel fit, so all that is
decoded does, and it has one value for each slot.

    Conforms t type v → Fits t type v                                              (fits_of_conforms)
    decoded arguments fit their format, whatever the bytes are               (decodeArguments_fits)
-/

namespace DeferredLog

/-! ## Typing -/

/-- The entry at an index is in the table, it has a format, and its slots have a property. -/
def Table.HasSlots (t : Table) (index : Nat) (P : List ArgType → Prop) : Prop :=
  (t.entry? index).isSome = true ∧ ∃ f, t.freshFormat index = .ok f ∧ P f.arguments

/-- No bits of an integer are set outside the bytes that a range touches. -/
def BitRange.Within (r : BitRange) (n : Nat) : Prop :=
  ∀ i, n.testBit i = true → r.low / 8 ≤ i / 8 ∧ i / 8 ≤ r.high / 8

namespace Wire

mutual

/-- A value is one of a type. -/
def Fits (t : Table) : ArgType → Value → Prop
  | .integer k, .integer l n => l = k ∧ k.Holds n
  | .float k, .float x => x.type = k
  | .bool, .bool _ => True
  | .char, .char c => c.toNat < 0xd800 ∨ 0xdfff < c.toNat ∧ c.toNat < 0x110000
  | .str, .str _ => True
  | .istr, .istr index format => ∃ e, t.entry? index = some e ∧ e.format = format
  | .bytes, .bytes _ => True
  | .byteArray length, .bytes data => data.length = length
  | .bitfield r, .bitfield s n => s = r ∧ r.Within n
  | .format, .nested index args => t.HasSlots index fun types => FitsAll t types args
  | .nested tag, .nested index args =>
    index = tag.index ∧ t.HasSlots index fun types => FitsAll t types args
  | .formatSlice, .formatSlice none elements => elements = []
  | .formatSlice, .formatSlice (some index) elements =>
    elements.length ≤ maxSliceLength ∧ FitsElements t index elements
  | _, _ => False
termination_by structural _ v => v

/-- Values are one for each type, and of that type. -/
def FitsAll (t : Table) : List ArgType → List Value → Prop
  | [], [] => True
  | type :: types, v :: vs => Fits t type v ∧ FitsAll t types vs
  | _, _ => False
termination_by structural _ vs => vs

/-- All values are those of one entry. -/
def FitsElements (t : Table) (index : Nat) : List Value → Prop
  | [] => True
  | .nested i args :: vs =>
    (i = index ∧ t.HasSlots index fun types => FitsAll t types args) ∧ FitsElements t index vs
  | _ => False
termination_by structural vs => vs

end

variable {t : Table}

/-! ## Values that can travel -/

theorem within_of_conforms {r : BitRange} {n : Nat} (hlt : n < Nat.pow 256 (r.lowByte + r.byteCount))
    (hmod : n % Nat.pow 256 r.lowByte = 0) : r.Within n := by
  have hpow : ∀ k, Nat.pow 256 k = 2 ^ (8 * k) := fun k => (Nat.pow_mul 2 8 k).symm
  rw [hpow] at hlt hmod
  intro i hi
  have hlow : 8 * r.lowByte ≤ i := by
    have hbit := Nat.testBit_mod_two_pow n (8 * r.lowByte) i
    rw [hmod, Nat.zero_testBit, hi, Bool.and_true, eq_comm, decide_eq_false_iff_not] at hbit
    omega
  have hhigh : i < 8 * (r.lowByte + r.byteCount) := by
    by_contra hge
    have hpow := Nat.pow_le_pow_right (show 0 < 2 by decide) (Nat.le_of_not_lt hge)
    rw [Nat.testBit_lt_two_pow (Nat.lt_of_lt_of_le hlt hpow)] at hi
    cases hi
  have hr := r.low_lt_high
  unfold BitRange.lowByte at hlow hhigh
  unfold BitRange.byteCount at hhigh
  omega

/-- Characters are Unicode scalar values. -/
theorem fits_char (c : Char) : Fits t .char (.char c) := by
  have hvalid : c.toNat < 0xd800 ∨ 0xdfff < c.toNat ∧ c.toNat < 0x110000 := c.valid
  rwa [Fits]

theorem hasSlots_of_freshFormat {index : Nat} {f : FormatString} {P : List ArgType → Prop}
    (hf : t.freshFormat index = .ok f) (h : P f.arguments) : t.HasSlots index P :=
  ⟨Table.isSome_of_readAt (Table.freshFormat_eq_ok_iff.mp hf).1, f, hf, h⟩

/-- What there is to a slice that is not empty. -/
theorem Conforms.of_slice {index : Nat} {vs : List Value}
    (h : Conforms t .formatSlice (.formatSlice (some index) vs)) :
    vs.length ≤ maxSliceLength ∧ ∃ f, t.freshFormat index = .ok f ∧
      ∀ v ∈ vs, ∃ args, v = .nested index args ∧ List.Forall₂ (Conforms t) f.arguments args := by
  cases h with
  | @elements _ elements f _ _ hlength hf hargs =>
    refine ⟨by rwa [List.length_map], f, hf, fun v hv => ?_⟩
    obtain ⟨args, hmem, rfl⟩ := List.mem_map.mp hv
    exact ⟨args, rfl, hargs args hmem⟩

mutual

theorem fits_of_conforms (v : Value) {type : ArgType} (h : Conforms t type v) : Fits t type v := by
  cases v with
  | nested index args =>
    cases h with
    | format _ hf hargs =>
      show t.HasSlots index fun types => FitsAll t types args
      exact hasSlots_of_freshFormat hf (fitsAll_of_conforms args hargs)
    | nested hf hargs => exact ⟨rfl, hasSlots_of_freshFormat hf (fitsAll_of_conforms args hargs)⟩
  | formatSlice index vs =>
    obtain rfl : type = .formatSlice := by cases h <;> rfl
    cases index with
    | none =>
      cases h
      rfl
    | some index =>
      obtain ⟨hlength, f, hf, hall⟩ := h.of_slice
      exact ⟨hlength, fitsElements_of_conforms vs hf hall⟩
  | integer k n => cases h with | integer h => exact ⟨rfl, h⟩
  | float x => cases h with | float => rfl
  | bool b => cases h with | bool => trivial
  | char c => cases h with | char => exact fits_char c
  | str s => cases h with | str => trivial
  | istr index format =>
    cases h with
    | @istr _ e _ he =>
      rw [Table.lookup_natCast] at he
      split at he
      · next he' => exact ⟨e, Except.ok.inj he ▸ he', rfl⟩
      · cases he
  | bytes data =>
    cases h with
    | bytes => trivial
    | byteArray => rfl
  | bitfield r n => cases h with | bitfield hlt hmod => exact ⟨rfl, within_of_conforms hlt hmod⟩
termination_by structural v

theorem fitsAll_of_conforms (vs : List Value) {types : List ArgType}
    (h : List.Forall₂ (Conforms t) types vs) : FitsAll t types vs := by
  cases vs with
  | nil =>
    cases h
    trivial
  | cons v vs =>
    cases h with
    | cons hv hvs => exact ⟨fits_of_conforms v hv, fitsAll_of_conforms vs hvs⟩
termination_by structural vs

theorem fitsElements_of_conforms (vs : List Value) {index : Nat} {f : FormatString}
    (hf : t.freshFormat index = .ok f)
    (h : ∀ v ∈ vs, ∃ args, v = .nested index args ∧ List.Forall₂ (Conforms t) f.arguments args) :
    FitsElements t index vs := by
  cases vs with
  | nil => trivial
  | cons v vs =>
    obtain ⟨hv, hvs⟩ := List.forall_mem_cons.mp h
    have hrest := fitsElements_of_conforms vs hf hvs
    cases v with
    | nested i args =>
      obtain ⟨_, heq, hargs⟩ := hv
      obtain ⟨rfl, rfl⟩ := Value.nested.inj heq
      exact ⟨⟨rfl, hasSlots_of_freshFormat hf (fitsAll_of_conforms args hargs)⟩, hrest⟩
    | _ =>
      obtain ⟨_, heq, -⟩ := hv
      cases heq
termination_by structural vs

end

/-! ## Decoded values -/

theorem FitsAll.length_eq {types : List ArgType} {vs : List Value} (h : FitsAll t types vs) :
    vs.length = types.length := by
  induction types generalizing vs with
  | nil =>
    cases vs with
    | nil => rfl
    | cons v vs => cases h
  | cons type types ih =>
    cases vs with
    | nil => cases h
    | cons v vs => exact congrArg (· + 1) (ih h.2)

/-- **Decoded values fit their formats.** Whatever the bytes are and whatever the table remembers, arguments
that are decoded are one for each slot of their format, and fit it. -/
theorem decodeArguments_fits (t : Table) (cache : FormatCache) (hc : t.Remembers cache) (depth : Nat)
    (f : FormatString) (c c' : Cursor) (vs : List Value)
    (h : (decodeArguments t t.format depth f c).result cache = .ok (vs, c')) :
    vs.length = f.arguments.length ∧ FitsAll t f.arguments vs := by
  rw [(decodeArguments_agrees t.format_agrees depth f c cache hc).1] at h
  have hfits := fitsAll_of_conforms vs (decodeArguments_returns depth f c vs c' h).1
  exact ⟨hfits.length_eq, hfits⟩

theorem decodeArguments_fits_sample :
    (decodeArguments Table.sample Table.sample.format 0 sampleSlots
        (Cursor.start sampleEncoding)).result {} = .ok (sampleValues, ⟨[], 28, 0⟩) ∧
      sampleValues.length = sampleSlots.arguments.length ∧
      FitsAll Table.sample sampleSlots.arguments sampleValues := by
  have hdecode : (decodeArguments Table.sample Table.sample.format 0 sampleSlots
      (Cursor.start sampleEncoding)).result {} = .ok (sampleValues, ⟨[], 28, 0⟩) := by
    have hdepth : Value.nestingAll sampleValues ≤ Table.sample.maxDepth - 0 := by decide
    have hreads := decodeArguments_reads conforms_sampleValues hdepth
    rw [encodeAll_sampleValues] at hreads
    rw [(decodeArguments_agrees Table.sample.format_agrees 0 sampleSlots _ {} .nothing).1]
    exact hreads [] 0
  exact ⟨hdecode, decodeArguments_fits Table.sample {} .nothing 0 sampleSlots _ _ _ hdecode⟩

end Wire

end DeferredLog
