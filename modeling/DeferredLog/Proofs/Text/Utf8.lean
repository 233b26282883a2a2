import DeferredLog.Text.Utf8

/-!
# Texts are read back from their bytes

The bytes of a character lead the automaton from the idle state back to it, through as many unfinished
sequences as there are continuation bytes:

    decode (encode s) = .ok s                                                   (decode_encode)

Conversely each byte of an unfinished sequence is one of the bytes of all characters that the sequence
can still become, so a text that was read has no other bytes than those it was read from:

    decode bytes = .ok s → encode s = bytes                                     (encode_of_decode)
-/

namespace DeferredLog.Text.Utf8

variable {pos : Nat} {b : UInt8} {bs : List UInt8} {c : Char} {p : Pending}

/-! ## Steps of the automaton -/

theorem decodeFrom_char (h : Begun.ofByte b = .char c) :
    decodeFrom pos none (b :: bs) = (decodeFrom (pos + 1) none bs).map (c :: ·) := by
  rw [decodeFrom, h]
  cases decodeFrom (pos + 1) none bs <;> rfl

theorem decodeFrom_pending (h : Begun.ofByte b = .pending p) :
    decodeFrom pos none (b :: bs) = decodeFrom (pos + 1) (some p) bs := by
  rw [decodeFrom, h]

theorem decodeFrom_next (h : p.accepts b = true) (hneed : 1 < p.need) :
    decodeFrom pos (some p) (b :: bs) = decodeFrom (pos + 1) (some (p.next b)) bs := by
  rw [decodeFrom, if_pos h, if_neg (by omega)]

theorem decodeFrom_last (h : p.accepts b = true) (hneed : p.need = 1) (hc : p.extended b = c.toNat) :
    decodeFrom pos (some p) (b :: bs) = (decodeFrom (pos + 1) none bs).map (c :: ·) := by
  rw [decodeFrom, if_pos h, if_pos (by omega), hc, Char.ofNat_toNat]
  cases decodeFrom (pos + 1) none bs <;> rfl

/-! ## Bytes of one character -/

/-- The continuation byte that carries the lowest six bits of `n`. -/
def tail (n : Nat) : UInt8 := UInt8.ofNat (n % 64 + 0x80)

theorem toNat_tail (n : Nat) : (tail n).toNat = n % 64 + 0x80 :=
  UInt8.toNat_ofNat_of_lt' (show n % 64 + 0x80 < 256 by omega)

theorem accepts_tail {n : Nat} (hlow : p.low ≤ n % 64 + 0x80) (hhigh : n % 64 + 0x80 ≤ p.high) :
    p.accepts (tail n) = true := by
  rw [Pending.accepts, toNat_tail, Bool.and_eq_true]
  exact ⟨decide_eq_true hlow, decide_eq_true hhigh⟩

/-- A continuation byte completes a number that was cut in front of its last six bits. -/
theorem extended_tail {n : Nat} (h : p.bits = n / 64) : p.extended (tail n) = n := by
  rw [Pending.extended, toNat_tail, h]
  omega

theorem ofByte_one {n : Nat} (h : n < 0x80) :
    Begun.ofByte (UInt8.ofNat n) = .char (Char.ofNat n) := by
  simp only [Begun.ofByte, UInt8.toNat_ofNat_of_lt' (show n < 256 by omega), if_pos h]

theorem ofByte_two {n : Nat} (h : 0x80 ≤ n) (h' : n < 0x800) :
    ∃ lead, Begun.ofByte (UInt8.ofNat (n / 64 % 32 + 0xc0)) =
      .pending ⟨1, 0x80, 0xbf, n / 64, lead, 1⟩ := by
  refine ⟨UInt8.ofNat (n / 64 % 32 + 0xc0), ?_⟩
  simp only [Begun.ofByte, UInt8.toNat_ofNat_of_lt' (show n / 64 % 32 + 0xc0 < 256 by omega)]
  rw [if_neg (by omega), if_neg (by omega), if_pos (by omega),
    show n / 64 % 32 + 0xc0 - 0xc0 = n / 64 by omega]

theorem ofByte_three {n : Nat} (h : 0x800 ≤ n) (h' : n < 0x10000) :
    ∃ lead, Begun.ofByte (UInt8.ofNat (n / 4096 % 16 + 0xe0)) =
      .pending ⟨2, if n / 4096 = 0 then 0xa0 else 0x80, if n / 4096 = 13 then 0x9f else 0xbf,
        n / 4096, lead, 1⟩ := by
  refine ⟨UInt8.ofNat (n / 4096 % 16 + 0xe0), ?_⟩
  have hn : n / 4096 % 16 = n / 4096 := by omega
  have hlow : n / 4096 + 0xe0 = 0xe0 ↔ n / 4096 = 0 := by omega
  have hhigh : n / 4096 + 0xe0 = 0xed ↔ n / 4096 = 13 := by omega
  simp only [Begun.ofByte, hn, UInt8.toNat_ofNat_of_lt' (show n / 4096 + 0xe0 < 256 by omega), hlow,
    hhigh, Nat.add_sub_cancel]
  rw [if_neg (by omega), if_neg (by omega), if_neg (by omega), if_pos (by omega)]

theorem ofByte_four {n : Nat} (h : 0x10000 ≤ n) (h' : n < 0x110000) :
    ∃ lead, Begun.ofByte (UInt8.ofNat (n / 262144 % 8 + 0xf0)) =
      .pending ⟨3, if n / 262144 = 0 then 0x90 else 0x80, if n / 262144 = 4 then 0x8f else 0xbf,
        n / 262144, lead, 1⟩ := by
  refine ⟨UInt8.ofNat (n / 262144 % 8 + 0xf0), ?_⟩
  have hn : n / 262144 % 8 = n / 262144 := by omega
  have hlow : n / 262144 + 0xf0 = 0xf0 ↔ n / 262144 = 0 := by omega
  have hhigh : n / 262144 + 0xf0 = 0xf4 ↔ n / 262144 = 4 := by omega
  simp only [Begun.ofByte, hn, UInt8.toNat_ofNat_of_lt' (show n / 262144 + 0xf0 < 256 by omega), hlow,
    hhigh, Nat.add_sub_cancel]
  rw [if_neg (by omega), if_neg (by omega), if_neg (by omega), if_neg (by omega), if_pos (by omega)]

/-! ## Characters and texts -/

theorem decodeFrom_tail (hneed : p.need = 1) (hbits : p.bits = c.toNat / 64)
    (hlow : p.low ≤ c.toNat % 64 + 0x80) (hhigh : c.toNat % 64 + 0x80 ≤ p.high) :
    decodeFrom pos (some p) (tail c.toNat :: bs) = (decodeFrom (pos + 1) none bs).map (c :: ·) :=
  decodeFrom_last (accepts_tail hlow hhigh) hneed (extended_tail hbits)

theorem decodeFrom_tail_tail (hneed : p.need = 2) (hbits : p.bits = c.toNat / 64 / 64)
    (hlow : p.low ≤ c.toNat / 64 % 64 + 0x80) (hhigh : c.toNat / 64 % 64 + 0x80 ≤ p.high) :
    decodeFrom pos (some p) (tail (c.toNat / 64) :: tail c.toNat :: bs) =
      (decodeFrom (pos + 2) none bs).map (c :: ·) := by
  rw [decodeFrom_next (accepts_tail hlow hhigh) (by omega)]
  refine decodeFrom_tail (by show p.need - 1 = 1; omega) (extended_tail hbits) ?_ ?_
  · show 0x80 ≤ _
    omega
  · show _ ≤ 0xbf
    omega

theorem decodeFrom_tail_tail_tail (hneed : p.need = 3) (hbits : p.bits = c.toNat / 64 / 64 / 64)
    (hlow : p.low ≤ c.toNat / 64 / 64 % 64 + 0x80) (hhigh : c.toNat / 64 / 64 % 64 + 0x80 ≤ p.high) :
    decodeFrom pos (some p) (tail (c.toNat / 64 / 64) :: tail (c.toNat / 64) :: tail c.toNat :: bs) =
      (decodeFrom (pos + 3) none bs).map (c :: ·) := by
  rw [decodeFrom_next (accepts_tail hlow hhigh) (by omega)]
  refine decodeFrom_tail_tail (by show p.need - 1 = 2; omega) (extended_tail hbits) ?_ ?_
  · show 0x80 ≤ _
    omega
  · show _ ≤ 0xbf
    omega

/-- The bytes of a character are read as that character, and leave the automaton idle. -/
theorem decodeFrom_encodeChar (c : Char) (pos : Nat) (bs : List UInt8) :
    ∃ next, decodeFrom pos none (String.utf8EncodeChar c ++ bs) =
      (decodeFrom next none bs).map (c :: ·) := by
  have hvalid : c.toNat < 0xd800 ∨ 0xdfff < c.toNat ∧ c.toNat < 0x110000 := c.valid
  have h64 : c.toNat / 4096 = c.toNat / 64 / 64 := by omega
  have h4096 : c.toNat / 262144 = c.toNat / 64 / 64 / 64 := by omega
  simp only [String.utf8EncodeChar, show c.val.toNat = c.toNat from rfl]
  by_cases h1 : c.toNat ≤ 0x7f
  · have hc := ofByte_one (show c.toNat < 0x80 by omega)
    rw [Char.ofNat_toNat] at hc
    rw [if_pos h1]
    exact ⟨_, decodeFrom_char hc⟩
  by_cases h2 : c.toNat ≤ 0x7ff
  · obtain ⟨lead, hlead⟩ := ofByte_two (show 0x80 ≤ c.toNat by omega) (by omega)
    rw [if_neg h1, if_pos h2]
    refine ⟨_, (decodeFrom_pending hlead).trans (decodeFrom_tail rfl rfl ?_ ?_)⟩
    · show 0x80 ≤ _
      omega
    · show _ ≤ 0xbf
      omega
  by_cases h3 : c.toNat ≤ 0xffff
  · obtain ⟨lead, hlead⟩ := ofByte_three (show 0x800 ≤ c.toNat by omega) (by omega)
    rw [if_neg h1, if_neg h2, if_pos h3]
    refine ⟨_, (decodeFrom_pending hlead).trans (decodeFrom_tail_tail rfl h64 ?_ ?_)⟩
    · show (if c.toNat / 4096 = 0 then 0xa0 else 0x80) ≤ _
      split <;> omega
    · -- the range after ED leaves out the surrogates, which are no characters
      show _ ≤ (if c.toNat / 4096 = 13 then 0x9f else 0xbf)
      split <;> omega
  · obtain ⟨lead, hlead⟩ := ofByte_four (show 0x10000 ≤ c.toNat by omega) (by omega)
    rw [if_neg h1, if_neg h2, if_neg h3, h64]
    refine ⟨_, (decodeFrom_pending hlead).trans (decodeFrom_tail_tail_tail rfl h4096 ?_ ?_)⟩
    · show (if c.toNat / 262144 = 0 then 0x90 else 0x80) ≤ _
      split <;> omega
    · show _ ≤ (if c.toNat / 262144 = 4 then 0x8f else 0xbf)
      split <;> omega

theorem decodeFrom_encode (cs : List Char) (pos : Nat) :
    decodeFrom pos none (cs.flatMap String.utf8EncodeChar) = .ok cs := by
  induction cs generalizing pos with
  | nil => rfl
  | cons c cs ih =>
    obtain ⟨next, hnext⟩ := decodeFrom_encodeChar c pos (cs.flatMap String.utf8EncodeChar)
    rw [List.flatMap_cons, hnext, ih]
    rfl

/-- A text is read back from its bytes. -/
theorem decode_encode (s : String) : decode (encode s) = .ok s := by
  rw [decode, encode, decodeFrom_encode]
  exact congrArg Except.ok String.ofList_toList

theorem encode_ne_nil {s : String} (h : s ≠ "") : encode s ≠ [] := by
  intro hnil
  have hs := decode_encode s
  rw [hnil] at hs
  exact h (Except.ok.inj hs).symm

/-! ## Bytes of a text that was read -/

/-- The continuation bytes that carry the lowest `count` groups of six bits of `n`. -/
def tails : Nat → Nat → List UInt8
  | 0, _ => []
  | count + 1, n => tail (n / Nat.pow 64 count) :: tails count n

/-- The numbers that an unfinished sequence can still become. -/
structure Pending.Admits (p : Pending) (n : Nat) : Prop where
  bits : n / Nat.pow 64 p.need = p.bits
  low : p.low ≤ n / Nat.pow 64 (p.need - 1) % 64 + 0x80
  high : n / Nat.pow 64 (p.need - 1) % 64 + 0x80 ≤ p.high

/-- `used` are the bytes of an unfinished sequence: what it can become are characters, and their bytes
start with them. -/
structure Pending.Follows (p : Pending) (used : List UInt8) : Prop where
  need_pos : 0 < p.need
  low_ge : 0x80 ≤ p.low
  high_le : p.high ≤ 0xbf
  valid : ∀ n, p.Admits n → n.isValidChar
  bytes : ∀ c : Char, p.Admits c.toNat → String.utf8EncodeChar c = used ++ tails p.need c.toNat

theorem accepts_iff : p.accepts b = true ↔ p.low ≤ b.toNat ∧ b.toNat ≤ p.high := by
  simp [Pending.accepts]

theorem tail_of_toNat {n : Nat} (hb : 0x80 ≤ b.toNat ∧ b.toNat ≤ 0xbf) (hn : n % 64 = b.toNat % 64) :
    tail n = b := by
  rw [← UInt8.toNat_inj, toNat_tail, hn]
  omega

theorem encodeChar_one (h : c.toNat < 0x80) : String.utf8EncodeChar c = [UInt8.ofNat c.toNat] := by
  simp only [String.utf8EncodeChar, show c.val.toNat = c.toNat from rfl]
  rw [if_pos (by omega)]

theorem encodeChar_two (h : 0x80 ≤ c.toNat) (h' : c.toNat < 0x800) :
    String.utf8EncodeChar c = UInt8.ofNat (c.toNat / 64 + 0xc0) :: tails 1 c.toNat := by
  simp only [String.utf8EncodeChar, show c.val.toNat = c.toNat from rfl]
  rw [if_neg (by omega), if_pos (by omega), show c.toNat / 64 % 32 = c.toNat / 64 by omega]
  simp only [tails, tail, Nat.pow_eq, Nat.pow_zero, Nat.div_one]

theorem encodeChar_three (h : 0x800 ≤ c.toNat) (h' : c.toNat < 0x10000) :
    String.utf8EncodeChar c = UInt8.ofNat (c.toNat / 4096 + 0xe0) :: tails 2 c.toNat := by
  simp only [String.utf8EncodeChar, show c.val.toNat = c.toNat from rfl]
  rw [if_neg (by omega), if_neg (by omega), if_pos (by omega),
    show c.toNat / 4096 % 16 = c.toNat / 4096 by omega]
  simp only [tails, tail, Nat.pow_eq, Nat.pow_zero, Nat.pow_one, Nat.div_one]

theorem encodeChar_four (h : 0x10000 ≤ c.toNat) (h' : c.toNat < 0x110000) :
    String.utf8EncodeChar c = UInt8.ofNat (c.toNat / 262144 + 0xf0) :: tails 3 c.toNat := by
  simp only [String.utf8EncodeChar, show c.val.toNat = c.toNat from rfl]
  rw [if_neg (by omega), if_neg (by omega), if_neg (by omega),
    show c.toNat / 262144 % 8 = c.toNat / 262144 by omega]
  simp only [tails, tail, Nat.pow_eq, Nat.pow_zero, Nat.pow_one, Nat.reducePow, Nat.div_one]

theorem toNat_ofNat {n : Nat} (h : n.isValidChar) : (Char.ofNat n).toNat = n := by
  rw [Char.ofNat, dif_pos h]
  rfl

theorem ofByte_char (h : Begun.ofByte b = .char c) : String.utf8EncodeChar c = [b] := by
  simp only [Begun.ofByte] at h
  split at h
  · next hb =>
    have hc : (Char.ofNat b.toNat).toNat = b.toNat := toNat_ofNat (.inl (by omega))
    obtain rfl := Begun.char.inj h
    rw [encodeChar_one (by rwa [hc]), hc, UInt8.ofNat_toNat]
  all_goals repeat' split at h
  all_goals cases h

theorem ofByte_follows (h : Begun.ofByte b = .pending p) : p.Follows [b] := by
  simp only [Begun.ofByte] at h
  split at h
  · cases h
  split at h
  · cases h
  split at h
  · next hlow hhigh =>
    obtain rfl := Begun.pending.inj h
    refine ⟨by simp, Nat.le_refl _, Nat.le_refl _, fun n hn => ?_, fun c hc => ?_⟩
    · have := hn.bits
      simp only [Nat.pow_eq, Nat.pow_one] at this
      exact .inl (by omega)
    · have := hc.bits
      simp only [Nat.pow_eq, Nat.pow_one] at this
      rw [encodeChar_two (by omega) (by omega), show c.toNat / 64 + 0xc0 = b.toNat by omega,
        UInt8.ofNat_toNat]
      rfl
  split at h
  · next hlow hhigh =>
    obtain rfl := Begun.pending.inj h
    refine ⟨by simp, by dsimp only; split <;> omega, by dsimp only; split <;> omega, ?_, ?_⟩
    · -- the range after ED leaves out the surrogates
      rintro n ⟨hbits, -, hh⟩
      simp only [Nat.reduceSub, Nat.pow_eq, Nat.pow_one, Nat.reducePow] at hbits hh
      show n < 0xd800 ∨ 0xdfff < n ∧ n < 0x110000
      split at hh <;> omega
    · -- and that after E0 what fits into two bytes
      rintro c ⟨hbits, hl, -⟩
      simp only [Nat.reduceSub, Nat.pow_eq, Nat.pow_one, Nat.reducePow] at hbits hl
      have hmin : 0x800 ≤ c.toNat := by split at hl <;> omega
      rw [encodeChar_three hmin (by omega), hbits, show b.toNat - 0xe0 + 0xe0 = b.toNat by omega,
        UInt8.ofNat_toNat]
      rfl
  split at h
  · next hlow hhigh =>
    obtain rfl := Begun.pending.inj h
    refine ⟨by simp, by dsimp only; split <;> omega, by dsimp only; split <;> omega, ?_, ?_⟩
    · rintro n ⟨hbits, hl, hh⟩
      simp only [Nat.reduceSub, Nat.pow_eq, Nat.reducePow] at hbits hl hh
      have hmin : 0x10000 ≤ n := by split at hl <;> omega
      have hmax : n < 0x110000 := by split at hh <;> omega
      exact .inr ⟨by omega, hmax⟩
    · rintro c ⟨hbits, hl, hh⟩
      simp only [Nat.reduceSub, Nat.pow_eq, Nat.reducePow] at hbits hl hh
      have hmin : 0x10000 ≤ c.toNat := by split at hl <;> omega
      have hmax : c.toNat < 0x110000 := by split at hh <;> omega
      rw [encodeChar_four hmin hmax, hbits, show b.toNat - 0xf0 + 0xf0 = b.toNat by omega,
        UInt8.ofNat_toNat]
      rfl
  · cases h

theorem Pending.Follows.next {used : List UInt8} (h : p.Follows used) (hb : p.accepts b = true)
    (hneed : 1 < p.need) : (p.next b).Follows (used ++ [b]) := by
  have hb' := accepts_iff.mp hb
  have hlow := h.low_ge
  have hhigh := h.high_le
  obtain ⟨need, hn⟩ : ∃ need, p.need = need + 2 := ⟨p.need - 2, by omega⟩
  have hnext : (p.next b).need = need + 1 := by
    show p.need - 1 = need + 1
    omega
  have hsplit (n : Nat) (hm : (p.next b).Admits n) :
      n / Nat.pow 64 (need + 1) = p.bits * 64 + b.toNat % 64 := by
    have hbits := hm.bits
    rwa [hnext] at hbits
  have hadmits (n : Nat) (hm : (p.next b).Admits n) : p.Admits n := by
    have hbits := hsplit n hm
    have hdiv : n / Nat.pow 64 (need + 2) = n / Nat.pow 64 (need + 1) / 64 := by
      rw [Nat.div_div_eq_div_mul]
      rfl
    constructor
    · rw [hn, hdiv, hbits]
      omega
    · rw [hn, Nat.add_sub_assoc (by decide), hbits]
      omega
    · rw [hn, Nat.add_sub_assoc (by decide), hbits]
      omega
  refine ⟨by rw [hnext]; omega, Nat.le_refl _, Nat.le_refl _, fun n hm => h.valid n (hadmits n hm), ?_⟩
  intro c hc
  have hbits := hsplit c.toNat hc
  rw [h.bytes c (hadmits _ hc), hn, hnext, tails, List.append_assoc]
  rw [tail_of_toNat (b := b) ⟨by omega, by omega⟩ (by rw [hbits]; omega)]
  rfl

theorem Pending.Follows.last {used : List UInt8} (h : p.Follows used) (hb : p.accepts b = true)
    (hneed : p.need = 1) : String.utf8EncodeChar (Char.ofNat (p.extended b)) = used ++ [b] := by
  have hb' := accepts_iff.mp hb
  have hlow := h.low_ge
  have hhigh := h.high_le
  have hext : p.extended b = p.bits * 64 + b.toNat % 64 := rfl
  have hn : p.Admits (p.extended b) := by
    constructor
    · rw [hneed, hext, Nat.pow_eq, Nat.pow_one]
      omega
    · rw [hneed, hext, Nat.sub_self, Nat.pow_eq, Nat.pow_zero]
      omega
    · rw [hneed, hext, Nat.sub_self, Nat.pow_eq, Nat.pow_zero]
      omega
  have hc : (Char.ofNat (p.extended b)).toNat = p.extended b :=
    toNat_ofNat (h.valid _ hn)
  rw [h.bytes _ (by rwa [hc]), hneed, hc]
  simp only [tails, Nat.pow_eq, Nat.pow_zero, Nat.div_one]
  rw [tail_of_toNat (b := b) ⟨by omega, by omega⟩ (by rw [hext]; omega)]

/-- `used` are the bytes of the character that a state of the automaton is in. -/
inductive Open : Option Pending → List UInt8 → Prop
  | idle : Open none []
  | within {p : Pending} {used : List UInt8} : p.Follows used → Open (some p) used

/-- The bytes that were read are those of the text. -/
theorem encode_of_decodeFrom {bytes used : List UInt8} {state : Option Pending} {cs : List Char}
    (hs : Open state used) (h : decodeFrom pos state bytes = .ok cs) :
    cs.flatMap String.utf8EncodeChar = used ++ bytes := by
  induction bytes generalizing pos used state cs with
  | nil =>
    cases hs with
    | idle =>
      obtain rfl := Except.ok.inj h
      rfl
    | within _ => cases h
  | cons b bs ih =>
    cases hs with
    | idle =>
      simp only [decodeFrom] at h
      split at h
      · next c hb =>
        split at h
        · next cs' hcs =>
          obtain rfl := Except.ok.inj h
          rw [List.flatMap_cons, ih .idle hcs, ofByte_char hb]
          rfl
        · cases h
      · next p hb => exact ih (.within (ofByte_follows hb)) h
      · cases h
    | @within p used hp =>
      simp only [decodeFrom] at h
      split at h
      · next hb =>
        have hpos := hp.need_pos
        split at h
        · next hneed =>
          split at h
          · next cs' hcs =>
            obtain rfl := Except.ok.inj h
            rw [List.flatMap_cons, ih .idle hcs, hp.last hb (by omega), List.nil_append,
              List.append_assoc]
            rfl
          · cases h
        · next hneed =>
          rw [ih (.within (hp.next hb (by omega))) h, List.append_assoc]
          rfl
      · cases h

/-- A text that was read has just the bytes that it was read from. -/
theorem encode_of_decode {bytes : List UInt8} {s : String} (h : decode bytes = .ok s) :
    encode s = bytes := by
  unfold decode at h
  cases hd : decodeFrom 0 none bytes with
  | error fault =>
    rw [hd] at h
    cases h
  | ok cs =>
    rw [hd] at h
    obtain rfl := Except.ok.inj h
    rw [encode, String.toList_ofList, encode_of_decodeFrom .idle hd, List.nil_append]

/-! ## Lossy decoding -/

theorem lossyChars_of_decodeFrom {bytes : List UInt8} {state : Option Pending} {cs : List Char}
    (h : decodeFrom pos state bytes = .ok cs) : lossyChars state bytes = cs := by
  induction bytes generalizing pos state cs with
  | nil =>
    cases state with
    | none => exact Except.ok.inj h
    | some p => cases h
  | cons b bs ih =>
    cases state with
    | none =>
      rw [lossyChars]
      simp only [decodeFrom] at h
      dsimp only
      split at h
      · next c hb =>
        split at h
        · next rest hrest =>
          obtain rfl := Except.ok.inj h
          rw [List.nil_append, ih hrest]
        · cases h
      · next p hb => rw [List.nil_append, ih h]
      · cases h
    | some p =>
      rw [lossyChars]
      simp only [decodeFrom] at h
      dsimp only
      split at h
      · next hb =>
        rw [if_pos hb]
        split at h
        · next hneed =>
          split at h
          · next rest hrest =>
            obtain rfl := Except.ok.inj h
            rw [if_pos hneed, ih hrest]
          · cases h
        · next hneed => rw [if_neg hneed, ih h]
      · cases h

/-- Nothing is lost of a text. -/
theorem decodeLossy_encode (s : String) : decodeLossy (encode s) = s := by
  rw [decodeLossy, encode, lossyChars_of_decodeFrom (decodeFrom_encode s.toList 0),
    String.ofList_toList]

/-! ## ASCII and NUL -/

/-- Only NUL has a zero among its bytes. -/
theorem zero_not_mem_encodeChar (hc : c ≠ '\x00') : 0 ∉ String.utf8EncodeChar c := by
  have hvalid : c.toNat < 0xd800 ∨ 0xdfff < c.toNat ∧ c.toNat < 0x110000 := c.valid
  have hlead {n : Nat} (hpos : 0 < n) (hlt : n < 256) : (0 : UInt8) ≠ UInt8.ofNat n := by
    rw [Ne, ← UInt8.toNat_inj, UInt8.toNat_ofNat_of_lt' hlt]
    exact Nat.ne_of_lt hpos
  have htails (count n : Nat) : 0 ∉ tails count n := by
    induction count generalizing n with
    | zero => exact List.not_mem_nil
    | succ count ih =>
      rw [tails, List.mem_cons, not_or]
      refine ⟨fun h => ?_, ih n⟩
      have htail := toNat_tail (n / Nat.pow 64 count)
      rw [← h] at htail
      exact absurd htail (by simp)
  by_cases h1 : c.toNat < 0x80
  · have hpos : 0 < c.toNat := by
      refine Nat.pos_of_ne_zero fun h => hc ?_
      rw [← Char.ofNat_toNat c, h]
    rw [encodeChar_one h1, List.mem_singleton]
    exact hlead hpos (by omega)
  by_cases h2 : c.toNat < 0x800
  · rw [encodeChar_two (by omega) h2, List.mem_cons, not_or]
    exact ⟨hlead (by omega) (by omega), htails _ _⟩
  by_cases h3 : c.toNat < 0x10000
  · rw [encodeChar_three (by omega) h3, List.mem_cons, not_or]
    exact ⟨hlead (by omega) (by omega), htails _ _⟩
  · rw [encodeChar_four (by omega) (by omega), List.mem_cons, not_or]
    exact ⟨hlead (by omega) (by omega), htails _ _⟩

theorem zero_not_mem_encode {s : String} (h : '\x00' ∉ s.toList) : 0 ∉ encode s := by
  rw [encode, List.mem_flatMap]
  rintro ⟨c, hc, hzero⟩
  exact zero_not_mem_encodeChar (fun heq => h (heq ▸ hc)) hzero

/-- A text of ASCII is also read back as ASCII. -/
theorem decodeAscii_encode {s : String} (h : ∀ c ∈ s.toList, c.toNat < 0x80) :
    decodeAscii (encode s) = s := by
  have hchars (cs : List Char) (hcs : ∀ c ∈ cs, c.toNat < 0x80) :
      (cs.flatMap String.utf8EncodeChar).map
        (fun b => if b.toNat < 0x80 then Char.ofNat b.toNat else replacement) = cs := by
    induction cs with
    | nil => rfl
    | cons c cs ih =>
      have hc := hcs c List.mem_cons_self
      have hbyte : (UInt8.ofNat c.toNat).toNat = c.toNat :=
        UInt8.toNat_ofNat_of_lt' (show c.toNat < 256 by omega)
      rw [List.flatMap_cons, encodeChar_one hc, List.map_append,
        ih fun d hd => hcs d (List.mem_cons_of_mem _ hd), List.map_singleton, hbyte, if_pos hc,
        Char.ofNat_toNat]
      rfl
  rw [decodeAscii, encode, hchars s.toList h, String.ofList_toList]

end DeferredLog.Text.Utf8
