import Mathlib
import DeferredLog.Proofs.Frame.Memory
import DeferredLog.Proofs.Wire.Prefix

/-!
# The prefix law of frames

Frames are not delimited, so where one ends must follow from its own bytes. `decode_prefix_law` says
that it does, for every table whose formats are texts and whatever the table remembers:

* a frame stays the same whatever follows its bytes, and any fewer bytes starve the decoder;
* a fault stays the same whatever follows;
* the decoder is starved exactly as long as it has seen neither a whole frame nor a fault.
-/

namespace DeferredLog

theorem Fault.kind_eq_starved_iff {e : Fault} : e.kind = .starved ↔ ∃ missing, e = .starved missing := by
  cases e <;> simp [Fault.kind]

/-- A decoding fault is not that bytes are missing. -/
theorem Fault.kind_ne_starved {e : Fault} (h : e.isDecodingFault = true) : e.kind ≠ .starved := by
  intro hk
  rw [Fault.isDecodingFault, hk] at h
  cases h

namespace Table

variable {t : Table} {data : List UInt8} {frame : Frame} {n : Nat} {e : Fault}

/-! ## Fresh formats -/

theorem decodeFresh_eq_bind (t : Table) (data : List UInt8) :
    t.decodeFresh data =
      Frame.decode t t.freshFormat ⟨data, 0, 0⟩ >>= fun p => .ok (p.1, p.2.offset) := rfl

theorem decodeFresh_nil (t : Table) : t.decodeFresh [] = .error (.starved 1) := rfl

theorem prefixed_decode (ht : t.HasTextFormats) : Prefixed (Frame.decode t t.freshFormat) :=
  Frame.decode_prefixed (fun _ _ h => isDecodingFault_of_freshFormat ht h) t

/-- A frame is found again in its own bytes, whatever follows them. -/
theorem decodeFresh_take_append (ht : t.HasTextFormats) (h : t.decodeFresh data = .ok (frame, n)) :
    n ≤ data.length ∧ ∀ suffix, t.decodeFresh (data.take n ++ suffix) = .ok (frame, n) := by
  have hlaw := prefixed_decode ht
  rw [decodeFresh_eq_bind] at h
  cases hd : Frame.decode t t.freshFormat ⟨data, 0, 0⟩ with
  | error e =>
    rw [hd] at h
    cases h
  | ok p =>
    obtain ⟨frame', c⟩ := p
    obtain ⟨used, rest, rfl, hused⟩ := hlaw.value hd
    rw [hused] at h
    obtain ⟨rfl, hn⟩ := Prod.mk.inj (Except.ok.inj h)
    rw [Nat.zero_add] at hn
    subst hn
    refine ⟨by simp, fun suffix => ?_⟩
    rw [List.take_left, decodeFresh_eq_bind, hused, Nat.zero_add]
    rfl

/-- A frame stays the same when bytes are added. -/
theorem decodeFresh_append (ht : t.HasTextFormats) (h : t.decodeFresh data = .ok (frame, n))
    (suffix : List UInt8) : t.decodeFresh (data ++ suffix) = .ok (frame, n) := by
  have := (decodeFresh_take_append ht h).2 (data.drop n ++ suffix)
  rwa [← List.append_assoc, List.take_append_drop] at this

/-- Bytes are missing, or there is a decoding fault that stays the same when bytes are added. -/
theorem decodeFresh_refusal (ht : t.HasTextFormats) (h : t.decodeFresh data = .error e) :
    e.kind = .starved ∨ e.isDecodingFault = true ∧
      ∀ suffix, t.decodeFresh (data ++ suffix) = .error e := by
  have hlaw := prefixed_decode ht
  rw [decodeFresh_eq_bind] at h
  cases hd : Frame.decode t t.freshFormat ⟨data, 0, 0⟩ with
  | ok p =>
    rw [hd] at h
    cases h
  | error e' =>
    rw [hd] at h
    obtain rfl := Except.error.inj h
    refine (hlaw.refusal hd).imp_right fun ⟨hk, hall⟩ => ⟨hk, fun suffix => ?_⟩
    rw [decodeFresh_eq_bind, hall]
    rfl

theorem pos_of_decodeFresh (ht : t.HasTextFormats) (h : t.decodeFresh data = .ok (frame, n)) :
    0 < n := by
  rcases Nat.eq_zero_or_pos n with rfl | hn
  · have := (decodeFresh_take_append ht h).2 []
    rw [List.take_zero, List.append_nil, decodeFresh_nil] at this
    cases this
  · exact hn

/-- Fewer bytes than those of the frame starve the decoder. -/
theorem starved_of_lt (ht : t.HasTextFormats) (h : t.decodeFresh data = .ok (frame, n)) {k : Nat}
    (hk : k < n) : ∃ missing, t.decodeFresh (data.take k) = .error (.starved missing) := by
  have hsplit : data.take k ++ data.drop k = data := List.take_append_drop ..
  cases hd : t.decodeFresh (data.take k) with
  | ok p =>
    -- a shorter frame would be found at the start of all bytes as well
    obtain ⟨frame', n'⟩ := p
    have hle := (decodeFresh_take_append ht hd).1
    have hsame := decodeFresh_append ht hd (data.drop k)
    rw [hsplit, h] at hsame
    obtain ⟨-, rfl⟩ := Prod.mk.inj (Except.ok.inj hsame)
    rw [List.length_take] at hle
    omega
  | error e =>
    rcases decodeFresh_refusal ht hd with hs | ⟨-, hall⟩
    · obtain ⟨missing, rfl⟩ := Fault.kind_eq_starved_iff.mp hs
      exact ⟨missing, rfl⟩
    · have hsame := hall (data.drop k)
      rw [hsplit, h] at hsame
      cases hsame

/-- The decoder is starved as long as no prefix is a whole frame or at fault. -/
theorem starved_iff (ht : t.HasTextFormats) (data : List UInt8) :
    (∃ missing, t.decodeFresh data = .error (.starved missing)) ↔ ∀ k ≤ data.length,
      (∀ frame, t.decodeFresh (data.take k) ≠ .ok (frame, k)) ∧
        ∀ e, e.isDecodingFault = true → t.decodeFresh (data.take k) ≠ .error e := by
  constructor
  · rintro ⟨missing, hs⟩ k -
    have hsplit : data.take k ++ data.drop k = data := List.take_append_drop ..
    refine ⟨fun frame hf => ?_, fun e he hf => ?_⟩
    · have hsame := decodeFresh_append ht hf (data.drop k)
      rw [hsplit, hs] at hsame
      cases hsame
    · rcases decodeFresh_refusal ht hf with hk | ⟨-, hall⟩
      · exact absurd hk (Fault.kind_ne_starved he)
      · have hsame := hall (data.drop k)
        rw [hsplit, hs] at hsame
        obtain rfl := Except.error.inj hsame
        cases he
  · intro hnone
    cases hd : t.decodeFresh data with
    | ok p =>
      obtain ⟨frame, n⟩ := p
      obtain ⟨hle, htake⟩ := decodeFresh_take_append ht hd
      have hwhole := htake []
      rw [List.append_nil] at hwhole
      exact absurd hwhole ((hnone n hle).1 frame)
    | error e =>
      rcases decodeFresh_refusal ht hd with hk | ⟨he, -⟩
      · obtain ⟨missing, rfl⟩ := Fault.kind_eq_starved_iff.mp hk
        exact ⟨missing, rfl⟩
      · have hself := (hnone data.length (Nat.le_refl _)).2 e he
        rw [List.take_length] at hself
        exact absurd hd hself

/-! ## Any state of the memory -/

/-- **The prefix law.** The table may remember different formats each time that bytes are decoded. -/
theorem decode_prefix_law (t : Table) (ht : t.HasTextFormats) (cache : FormatCache)
    (hc : t.Remembers cache) (data : List UInt8) :
    (∀ frame n, t.decode cache data = .ok (frame, n) →
      (1 ≤ n ∧ n ≤ data.length) ∧
      ∀ later, t.Remembers later →
        (∀ suffix, t.decode later (data ++ suffix) = .ok (frame, n)) ∧
        ∀ k < n, ∃ missing, t.decode later (data.take k) = .error (.starved missing)) ∧
    (∀ e, t.decode cache data = .error e → e.isDecodingFault = true →
      ∀ later, t.Remembers later → ∀ suffix, t.decode later (data ++ suffix) = .error e) ∧
    ((∃ missing, t.decode cache data = .error (.starved missing)) ↔
      ∀ later, t.Remembers later → ∀ k ≤ data.length,
        (∀ frame, t.decode later (data.take k) ≠ .ok (frame, k)) ∧
        ∀ e, e.isDecodingFault = true → t.decode later (data.take k) ≠ .error e) := by
  rw [decode_eq_decodeFresh hc]
  refine ⟨fun frame n h => ⟨⟨pos_of_decodeFresh ht h, (decodeFresh_take_append ht h).1⟩, ?_⟩, ?_, ?_⟩
  · intro later hl
    refine ⟨fun suffix => ?_, fun k hk => ?_⟩
    · rw [decode_eq_decodeFresh hl]
      exact decodeFresh_append ht h suffix
    · rw [decode_eq_decodeFresh hl]
      exact starved_of_lt ht h hk
  · intro e h he later hl suffix
    rw [decode_eq_decodeFresh hl]
    rcases decodeFresh_refusal ht h with hk | ⟨-, hall⟩
    · exact absurd hk (Fault.kind_ne_starved he)
    · exact hall suffix
  · rw [starved_iff ht]
    constructor
    · intro h later hl
      simpa only [decode_eq_decodeFresh hl] using h
    · intro h
      simpa only [decode_eq_decodeFresh hc] using h cache hc

/-- A frame of the sample table. -/
def sampleFrame : Frame :=
  ⟨sampleStatement, .info, [.integer .u8 7],
    [.str "é", .formatSlice (some 2) [.nested 2 [.integer .u8 5], .nested 2 [.integer .u8 6]],
      .integer .u16 513]⟩

/-- The bytes of that frame. -/
def sampleBytes : List UInt8 := [1, 7, 2, 0xc3, 0xa9, 2, 2, 5, 6, 1, 2]

theorem decode_sampleBytes : sample.decode {} sampleBytes = .ok (sampleFrame, 11) := by cbv

theorem decode_prefix_law_sample :
    sample.HasTextFormats ∧ sample.Remembers {} ∧
      (∀ suffix, sample.decode ((sample.format 2).cacheAfter {}) (sampleBytes ++ suffix) =
        .ok (sampleFrame, 11)) ∧
      ∃ missing, sample.decode {} (sampleBytes.take 8) = .error (.starved missing) := by
  have law := decode_prefix_law sample sample_hasTextFormats {} .nothing sampleBytes
  have frame := (law.1 _ _ decode_sampleBytes).2
  refine ⟨sample_hasTextFormats, .nothing, ?_, ?_⟩
  · exact (frame _ (.format 2 .nothing)).1
  · exact (frame _ .nothing).2 8 (by decide)

end Table

end DeferredLog
