import DeferredLog.Display.Value
import DeferredLog.Proofs.Display.Integer
import DeferredLog.Proofs.Text.Utf8

/-!
# Escaped text is read back

Text and bytes in quotes are written character by character, each in one of the forms of `Written`: by
itself, as a backslash and a letter, or by its code. The forms follow each other without separators, and
still every text in quotes has one reading only, whatever follows it (`readQuoted?`). What is shown in
quotes has no control characters, and its only quote that is not escaped is the one that closes it:

    every character is in its form → IsQuoted shown quote cs (quote :: … ++ [quote])         (isQuoted)

Both escaped forms that values are shown in are of this kind, so that different texts, and different
bytes, are shown differently (escaping_lossless).
-/

namespace DeferredLog.Display

open Text

/-! ## Reading -/

/-- The character that a backslash and a letter stand for. -/
def letterMeaning? : Char → Option Char
  | '\\' => some '\\'
  | 'n' => some '\n'
  | 'r' => some '\r'
  | 't' => some '\t'
  | '0' => some '\x00'
  | '\'' => some '\''
  | '"' => some '"'
  | _ => none

/-- The letters of hexadecimal codes. -/
def codeAlphabet : List Char := HintKind.lowerHex.alphabet

/-- Where a reader of text in quotes stands. -/
inductive Place where
  | plain
  /-- Behind a backslash. -/
  | escape
  /-- Behind some digits of a code in braces. -/
  | code (n : Nat)

/-- Reads up to the quote that closes a text, and returns the text and what follows. -/
def readFrom? (quote : Char) : Place → List Char → Option (List Char × List Char)
  | _, [] => none
  | .plain, c :: cs =>
    if c = quote then some ([], cs)
    else if c = '\\' then readFrom? quote .escape cs
    else (readFrom? quote .plain cs).map fun p => (c :: p.1, p.2)
  | .escape, 'u' :: '{' :: cs => readFrom? quote (.code 0) cs
  | .escape, 'x' :: a :: b :: cs =>
    match value? codeAlphabet [a, b] with
    | some n => (readFrom? quote .plain cs).map fun p => (Char.ofNat n :: p.1, p.2)
    | none => none
  | .escape, c :: cs =>
    match letterMeaning? c with
    | some meaning => (readFrom? quote .plain cs).map fun p => (meaning :: p.1, p.2)
    | none => none
  | .code n, c :: cs =>
    if c = '}' then (readFrom? quote .plain cs).map fun p => (Char.ofNat n :: p.1, p.2)
    else
      match codeAlphabet.idxOf? c with
      | some digit => readFrom? quote (.code (codeAlphabet.length * n + digit)) cs
      | none => none

/-- Reads a text in quotes; its first character is the quote. -/
def readQuoted? : List Char → Option (List Char × List Char)
  | [] => none
  | quote :: cs => readFrom? quote .plain cs

/-- Whether what follows is escaped: by a backslash in front of it that is not escaped itself. -/
def isEscaped (before : List Char) : Bool := before.foldl (fun escaped c => !escaped && c == '\\') false

/-- A text in quotes that `cs` can be read back from. -/
structure IsQuoted (shown : Char → Prop) (quote : Char) (cs text : List Char) : Prop where
  /-- Undoing the escapes gives `cs`, and ends where the text ends. -/
  reads : ∀ rest, readQuoted? (text ++ rest) = some (cs, rest)
  ends : ∃ body, text = quote :: (body ++ [quote])
  /-- Behind the first quote only the last one is not escaped. -/
  closes : ∀ before after, text = quote :: (before ++ quote :: after) →
    (isEscaped before = false ↔ after = [])
  shown : ∀ c ∈ text, shown c

/-! ## Writing -/

/-- The forms in which a character is written between quotes. -/
inductive Written (shown : Char → Prop) (quote : Char) : Char → List Char → Prop
  | plain {c : Char} : c ≠ '\\' → c ≠ quote → shown c → Written shown quote c [c]
  | letter {c letter : Char} : letterMeaning? letter = some c → Written shown quote c ['\\', letter]
  | code {c : Char} {ds : List Char} : value? codeAlphabet ds = some c.toNat →
      Written shown quote c ('\\' :: 'u' :: '{' :: (ds ++ ['}']))
  | byte {c a b : Char} : value? codeAlphabet [a, b] = some c.toNat →
      Written shown quote c ['\\', 'x', a, b]

/-- The printable characters of ASCII. -/
def IsPrintableAscii (c : Char) : Prop := 0x20 ≤ c.toNat ∧ c.toNat < 0x7f

/-- The characters that are no control characters of ASCII. -/
def IsVisible (c : Char) : Prop := 0x20 ≤ c.toNat ∧ c.toNat ≠ 0x7f

variable {quote c : Char} {shown : Char → Prop} {text : List Char}

/-! ## One form -/

theorem readFrom?_letter {letter : Char} (h : letterMeaning? letter = some c) (cs : List Char) :
    readFrom? quote .escape (letter :: cs) =
      (readFrom? quote .plain cs).map fun p => (c :: p.1, p.2) := by
  have hu : letter ≠ 'u' := by
    rintro rfl
    cases h
  have hx : letter ≠ 'x' := by
    rintro rfl
    cases h
  rw [readFrom?, h]
  · exact fun _ hletter _ => hu hletter
  · exact fun _ _ _ hletter _ => hx hletter

theorem readFrom?_code {n : Nat} {ds : List Char} (start : Nat)
    (h : valueFrom? codeAlphabet start ds = some n) (cs : List Char) :
    readFrom? quote (.code start) (ds ++ '}' :: cs) =
      (readFrom? quote .plain cs).map fun p => (Char.ofNat n :: p.1, p.2) := by
  induction ds generalizing start with
  | nil =>
    obtain rfl := Option.some.inj h
    rw [List.nil_append, readFrom?, if_pos rfl]
  | cons d ds ih =>
    rw [valueFrom?] at h
    cases hd : codeAlphabet.idxOf? d with
    | none =>
      rw [hd] at h
      cases h
    | some digit =>
      rw [hd] at h
      have hbrace : d ≠ '}' := by
        rintro rfl
        cases hd
      rw [List.cons_append, readFrom?, if_neg hbrace, hd]
      exact ih _ h

/-- A character is read from its form, whatever follows. -/
theorem Written.reads (hquote : quote ≠ '\\') (h : Written shown quote c text) (cs : List Char) :
    readFrom? quote .plain (text ++ cs) = (readFrom? quote .plain cs).map fun p => (c :: p.1, p.2) := by
  have hescape (cs : List Char) :
      readFrom? quote .plain ('\\' :: cs) = readFrom? quote .escape cs := by
    rw [readFrom?, if_neg hquote.symm, if_pos rfl]
  cases h with
  | plain hne hq _ => rw [List.singleton_append, readFrom?, if_neg hq, if_neg hne]
  | letter hletter => rw [List.cons_append, hescape, List.singleton_append, readFrom?_letter hletter]
  | @code ds hvalue =>
    have hcode := @readFrom?_code quote _ _ 0 (valueFrom?_of_value? hvalue) cs
    rw [Char.ofNat_toNat] at hcode
    show readFrom? quote .plain ('\\' :: 'u' :: '{' :: (ds ++ ['}'] ++ cs)) = _
    rw [hescape, readFrom?, List.append_assoc, List.singleton_append, hcode]
  | @byte a b hvalue =>
    show readFrom? quote .plain ('\\' :: 'x' :: a :: b :: cs) = _
    rw [hescape, readFrom?, hvalue]
    dsimp only
    rw [Char.ofNat_toNat]

/-! ## The quote that closes a text -/

/-- The quotes that text is shown in. -/
def IsQuote (quote : Char) : Prop := quote = '\'' ∨ quote = '"'

theorem IsQuote.ne_backslash (h : IsQuote quote) : quote ≠ '\\' := by
  rcases h with rfl | rfl <;> decide

/-- The braces and letters of a code are neither backslash nor quote. -/
theorem IsQuote.ne_of_mem_code (h : IsQuote quote) {d : Char} (hd : d ∈ '{' :: '}' :: codeAlphabet) :
    d ≠ '\\' ∧ d ≠ quote := by
  have hall : ('{' :: '}' :: codeAlphabet).all (fun d => d ≠ '\\' ∧ d ≠ '\'' ∧ d ≠ '"') = true := by
    decide
  obtain ⟨hbackslash, hsingle, hdouble⟩ := of_decide_eq_true (List.all_eq_true.mp hall d hd)
  rcases h with rfl | rfl
  · exact ⟨hbackslash, hsingle⟩
  · exact ⟨hbackslash, hdouble⟩

/-- The only quote in a text that is not escaped is its last character. -/
def Closes (quote : Char) (text : List Char) : Prop :=
  ∀ before after, text = before ++ quote :: after → (isEscaped before = false ↔ after = [])

theorem closes_quote (quote : Char) : Closes quote [quote] := by
  intro before after h
  cases before with
  | nil => exact iff_of_true rfl (List.cons.inj h).2.symm
  | cons b before => simp at h

theorem isEscaped_cons_of_ne {before : List Char} (hc : c ≠ '\\') :
    isEscaped (c :: before) = isEscaped before := by
  rw [isEscaped, List.foldl_cons, beq_false_of_ne hc, isEscaped]
  rfl

theorem Closes.cons (hc : c ≠ '\\') (hq : c ≠ quote) (h : Closes quote text) :
    Closes quote (c :: text) := by
  intro before after htext
  cases before with
  | nil => exact absurd (List.cons.inj htext).1 hq
  | cons b before =>
    obtain ⟨rfl, htail⟩ := List.cons.inj htext
    rw [isEscaped_cons_of_ne hc]
    exact h before after htail

/-- A backslash escapes the character behind it, be it a quote or another backslash. -/
theorem Closes.escape (hquote : quote ≠ '\\') (hne : text ≠ []) (h : Closes quote text) (c : Char) :
    Closes quote ('\\' :: c :: text) := by
  intro before after htext
  cases before with
  | nil => exact absurd (List.cons.inj htext).1.symm hquote
  | cons b before =>
    obtain ⟨rfl, hescaped⟩ := List.cons.inj htext
    cases before with
    | nil =>
      obtain ⟨-, rfl⟩ := List.cons.inj hescaped
      exact iff_of_false (by decide) hne
    | cons b before =>
      obtain ⟨rfl, htail⟩ := List.cons.inj hescaped
      exact h before after htail

theorem Closes.append {ds : List Char} (hds : ∀ d ∈ ds, d ≠ '\\' ∧ d ≠ quote) (h : Closes quote text) :
    Closes quote (ds ++ text) := by
  induction ds with
  | nil => exact h
  | cons d ds ih =>
    obtain ⟨hd, hds⟩ := List.forall_mem_cons.mp hds
    exact (ih hds).cons hd.1 hd.2

theorem Written.closes (hquote : IsQuote quote) {tail : List Char} (h : Written shown quote c text)
    (hne : tail ≠ []) (htail : Closes quote tail) : Closes quote (text ++ tail) := by
  cases h with
  | plain hc hq _ => exact htail.cons hc hq
  | letter _ => exact htail.escape hquote.ne_backslash hne _
  | @code ds hvalue =>
    have hds : ∀ d ∈ '{' :: (ds ++ ['}']), d ≠ '\\' ∧ d ≠ quote := by
      intro d hd
      apply hquote.ne_of_mem_code
      simp only [List.mem_cons, List.mem_append, List.not_mem_nil, or_false] at hd ⊢
      rcases hd with rfl | hd | rfl
      · exact .inl rfl
      · exact .inr (.inr (mem_of_value? hvalue hd))
      · exact .inr (.inl rfl)
    exact (htail.append hds).escape hquote.ne_backslash (by simp) 'u'
  | @byte a b hvalue =>
    have hds : ∀ d ∈ [a, b], d ≠ '\\' ∧ d ≠ quote := fun d hd =>
      hquote.ne_of_mem_code (.tail _ (.tail _ (mem_of_value? hvalue hd)))
    exact (htail.append hds).escape hquote.ne_backslash (by simp) 'x'

/-! ## What is in a form -/

instance (c : Char) : Decidable (IsPrintableAscii c) := inferInstanceAs (Decidable (_ ∧ _))

theorem IsPrintableAscii.isVisible (h : IsPrintableAscii c) : IsVisible c := ⟨h.1, Nat.ne_of_lt h.2⟩

theorem isPrintableAscii_of_letterMeaning? {letter : Char} (h : letterMeaning? letter = some c) :
    IsPrintableAscii letter := by
  unfold letterMeaning? at h
  split at h
  case h_8 => cases h
  all_goals decide

theorem isPrintableAscii_of_mem_codeAlphabet {d : Char} (hd : d ∈ codeAlphabet) : IsPrintableAscii d := by
  have hall : codeAlphabet.all (fun d => IsPrintableAscii d) = true := by decide
  exact of_decide_eq_true (List.all_eq_true.mp hall d hd)

theorem Written.forall_shown (hshown : ∀ c, IsPrintableAscii c → shown c) (h : Written shown quote c text) :
    ∀ d ∈ text, shown d := by
  have hbackslash : shown '\\' := hshown _ (by decide)
  cases h with
  | plain _ _ hc => simpa using hc
  | letter hletter =>
    simpa using ⟨hbackslash, hshown _ (isPrintableAscii_of_letterMeaning? hletter)⟩
  | @code ds hvalue =>
    have hds : ∀ d ∈ ds, shown d := fun d hd =>
      hshown d (isPrintableAscii_of_mem_codeAlphabet (mem_of_value? hvalue hd))
    intro d hd
    simp only [List.mem_cons, List.mem_append, List.not_mem_nil, or_false] at hd
    rcases hd with rfl | rfl | rfl | hd | rfl
    · exact hbackslash
    · exact hshown _ (by decide)
    · exact hshown _ (by decide)
    · exact hds d hd
    · exact hshown _ (by decide)
  | @byte a b hvalue =>
    have hds : ∀ d ∈ [a, b], shown d := fun d hd =>
      hshown d (isPrintableAscii_of_mem_codeAlphabet (mem_of_value? hvalue hd))
    exact List.forall_mem_cons.mpr ⟨hbackslash, List.forall_mem_cons.mpr ⟨hshown _ (by decide), hds⟩⟩

/-- A text each character of which is in one of the forms is read back as these characters. -/
theorem isQuoted {α : Type} (hquote : IsQuote quote) (hshown : ∀ c, IsPrintableAscii c → shown c)
    {value : α → Char} {form : α → List Char} (h : ∀ a, Written shown quote (value a) (form a))
    (as : List α) :
    IsQuoted shown quote (as.map value) (quote :: (as.flatMap form ++ [quote])) where
  reads rest := by
    rw [List.cons_append, readQuoted?, List.append_assoc, List.singleton_append]
    induction as with
    | nil => rw [List.flatMap_nil, List.nil_append, readFrom?, if_pos rfl, List.map_nil]
    | cons a as ih =>
      rw [List.flatMap_cons, List.append_assoc, (h a).reads hquote.ne_backslash, ih, Option.map_some,
        List.map_cons]
  ends := ⟨_, rfl⟩
  closes before after htext := by
    have hcloses : Closes quote (as.flatMap form ++ [quote]) := by
      clear htext
      induction as with
      | nil => exact closes_quote quote
      | cons a as ih =>
        rw [List.flatMap_cons, List.append_assoc]
        exact (h a).closes hquote (by simp) ih
    exact hcloses before after (List.cons.inj htext).2
  shown := by
    have hq : shown quote := by
      rcases hquote with rfl | rfl <;> exact hshown _ (by decide)
    intro c hc
    simp only [List.mem_cons, List.mem_append, List.mem_flatMap, List.not_mem_nil, or_false] at hc
    rcases hc with rfl | ⟨a, -, hc⟩ | rfl
    · exact hq
    · exact (h a).forall_shown hshown c hc
    · exact hq

/-! ## The two escaped forms -/

theorem value?_digits (n : Nat) : value? codeAlphabet (digits 16 n) = some n := by
  have hwrites : Writes codeAlphabet n (Nat.toDigits codeAlphabet.length n) :=
    writes_toDigits_length (by decide) (by decide) n
  exact hwrites.value

theorem letterMeaning?_of_shortEscape? {letter : Char} (h : shortEscape? c = some letter) :
    letterMeaning? letter = some c := by
  unfold shortEscape? at h
  split at h
  · next hc => rw [← Option.some.inj h, hc]; rfl
  split at h
  · next hc => rw [← Option.some.inj h, hc]; rfl
  split at h
  · next hc => rw [← Option.some.inj h, hc]; rfl
  split at h
  · next hc => rw [← Option.some.inj h, hc]; rfl
  split at h
  · next hc => rw [← Option.some.inj h, hc]; rfl
  · cases h

theorem ne_backslash_of_shortEscape? (h : shortEscape? c = none) : c ≠ '\\' := by
  rintro rfl
  cases h

theorem written_escapedChar (hquote : IsQuote quote) (c : Char) :
    Written IsVisible quote c (escapedChar quote c) := by
  unfold escapedChar
  split
  · next letter hletter => exact .letter (letterMeaning?_of_shortEscape? hletter)
  · next hnone =>
    split
    · next hc =>
      rw [hc]
      exact .letter (by rcases hquote with rfl | rfl <;> rfl)
    · next hc =>
      split
      · exact .code (value?_digits c.toNat)
      · next hvisible =>
        refine .plain (ne_backslash_of_shortEscape? hnone) hc ?_
        unfold IsVisible
        omega

/-- The character with the code of a byte. -/
def byteChar (b : UInt8) : Char := Char.ofNat b.toNat

theorem toNat_byteChar (b : UInt8) : (byteChar b).toNat = b.toNat := by
  have hb : b.toNat < 256 := b.toNat_lt
  exact Text.Utf8.toNat_ofNat (.inl (by omega))

theorem byteChar_inj {a b : UInt8} (h : byteChar a = byteChar b) : a = b := by
  apply UInt8.toNat_inj.mp
  rw [← toNat_byteChar a, ← toNat_byteChar b, h]

/-- The code of a byte is two letters long. -/
theorem exists_padded_byte (b : UInt8) :
    ∃ high low, padded 16 2 b.toNat = [high, low] ∧ value? codeAlphabet [high, low] = some b.toNat := by
  have hb : b.toNat < 16 ^ 2 := b.toNat_lt
  have hlength : (digits 16 b.toNat).length ≤ 2 :=
    (Nat.length_toDigits_le_iff (by decide) (by decide)).mpr hb
  have hpadded : (padded 16 2 b.toNat).length = 2 := by
    rw [padded, List.length_leftpad]
    omega
  obtain ⟨high, low, heq⟩ := List.length_eq_two.mp hpadded
  refine ⟨high, low, heq, ?_⟩
  rw [← heq]
  exact value?_replicate_append rfl _ (value?_digits b.toNat)

theorem written_escapedByte (b : UInt8) :
    Written IsPrintableAscii '"' (byteChar b) (escapedByte b) := by
  unfold escapedByte
  split
  · next letter hletter => exact .letter (letterMeaning?_of_shortEscape? hletter)
  · next hnone =>
    split
    · next hb =>
      rw [hb]
      exact .letter rfl
    · next hb =>
      split
      · next hprintable =>
        refine .plain (ne_backslash_of_shortEscape? hnone) ?_ ?_
        · intro hquote
          exact hb (byteChar_inj (b := 0x22) hquote)
        · rw [IsPrintableAscii, toNat_byteChar]
          exact hprintable
      · obtain ⟨high, low, hpadded, hvalue⟩ := exists_padded_byte b
        rw [hpadded]
        exact .byte (by rw [hvalue, toNat_byteChar])

theorem isQuoted_escapedText (hquote : IsQuote quote) (cs : List Char) :
    IsQuoted IsVisible quote cs (escapedText quote cs) := by
  have h : IsQuoted IsVisible quote (cs.map id) (escapedText quote cs) :=
    isQuoted hquote (fun _ => IsPrintableAscii.isVisible) (written_escapedChar hquote) cs
  rwa [List.map_id] at h

/-- Behind the letter in front of it, an escaped byte string is a text in quotes. -/
theorem isQuoted_escapedBytes (bytes : List UInt8) :
    ∃ text, escapedBytes bytes = 'b' :: text ∧
      IsQuoted IsPrintableAscii '"' (bytes.map byteChar) text :=
  ⟨_, rfl, isQuoted (.inr rfl) (fun _ h => h) written_escapedByte bytes⟩

theorem IsQuoted.inj {cs cs' : List Char} (h : IsQuoted shown quote cs text)
    (h' : IsQuoted shown quote cs' text) : cs = cs' := by
  have hread := h.reads []
  rw [h'.reads []] at hread
  exact (Prod.mk.inj (Option.some.inj hread)).1.symm

/-- **Escaping loses nothing.** Text in either quote and byte strings are in quotes from which they are
read back, with no quote but the last that is not escaped, and without control characters; of byte
strings all characters are printable ASCII. So no two texts, and no two byte strings, are escaped alike.
This is how characters and texts are shown under the debug hint, and bytes under the ASCII hint. -/
theorem escaping_lossless (formats : Nat → Except Fault FormatString) (d : Directive)
    (hint : Option Hint) :
    (∀ quote, IsQuote quote → ∀ cs, IsQuoted IsVisible quote cs (escapedText quote cs)) ∧
    (∀ quote, IsQuote quote → Function.Injective (escapedText quote)) ∧
    (∀ bytes, ∃ text, escapedBytes bytes = 'b' :: text ∧
      IsQuoted IsPrintableAscii '"' (bytes.map byteChar) text) ∧
    Function.Injective escapedBytes ∧
    (isDebug (hint.or d.hint) = true →
      (∀ c, renderValue formats (.char c) d hint = .ok (.chars (escapedText '\'' [c]))) ∧
      (∀ s, renderValue formats (.str s) d hint = .ok (.chars (escapedText '"' s.toList))) ∧
      ∀ index s, renderValue formats (.istr index (.string s)) d hint =
        .ok (.chars (escapedText '"' s.toList))) ∧
    ((hint.or d.hint).map Hint.kind = some .ascii →
      ∀ bytes, renderValue formats (.bytes bytes) d hint = .ok (.chars (escapedBytes bytes))) := by
  refine ⟨fun quote => isQuoted_escapedText, ?_, isQuoted_escapedBytes, ?_, ?_, ?_⟩
  · intro quote hquote cs cs' htext
    have h := isQuoted_escapedText hquote cs
    rw [htext] at h
    exact h.inj (isQuoted_escapedText hquote cs')
  · intro bytes bytes' htext
    obtain ⟨text, heq, h⟩ := isQuoted_escapedBytes bytes
    obtain ⟨text', heq', h'⟩ := isQuoted_escapedBytes bytes'
    rw [heq, heq'] at htext
    obtain rfl := (List.cons.inj htext).2
    exact List.map_injective_iff.mpr (fun _ _ => byteChar_inj) (h.inj h')
  · intro hdebug
    refine ⟨fun c => ?_, fun s => ?_, fun index s => ?_⟩
    · simp only [renderValue, renderer, textPiece, if_pos hdebug]
      rfl
    · simp only [renderValue, renderer, textPiece, if_pos hdebug]
      rfl
    · simp only [renderValue, renderer, tableText, if_pos hdebug]
      rfl
  · intro hascii bytes
    simp only [renderValue, renderer, bytesText, if_pos hascii]
    rfl

/-- The formats of a table without entries. -/
def noFormats (index : Nat) : Except Fault FormatString := .error (.unknownIndex index)

/-- A text that escapes of all lengths are needed for, and bytes of all forms. -/
theorem escaping_lossless_sample :
    IsQuote '"' ∧ isDebug (some ⟨.debug, false, false, 0⟩) = true ∧
      renderValue noFormats (.str "\"\\\x01é") ⟨0, .str, none⟩
        (some ⟨.debug, false, false, 0⟩) = .ok (.chars (escapedText '"' "\"\\\x01é".toList)) ∧
      IsQuoted IsVisible '"' "\"\\\x01é".toList
        ['"', '\\', '"', '\\', '\\', '\\', 'u', '{', '1', '}', 'é', '"'] ∧
      (some (⟨.ascii, false, false, 0⟩ : Hint)).map Hint.kind = some .ascii ∧
      renderValue noFormats (.bytes [0x22, 0x0a, 0xc3]) ⟨0, .bytes, none⟩
        (some ⟨.ascii, false, false, 0⟩) =
          .ok (.chars ['b', '"', '\\', '"', '\\', 'n', '\\', 'x', 'c', '3', '"']) := by
  obtain ⟨hquoted, -, -, -, htext, -⟩ :=
    escaping_lossless noFormats ⟨0, .str, none⟩ (some ⟨.debug, false, false, 0⟩)
  obtain ⟨-, -, -, -, -, hbytes⟩ :=
    escaping_lossless noFormats ⟨0, .bytes, none⟩ (some ⟨.ascii, false, false, 0⟩)
  have hsample : escapedText '"' "\"\\\x01é".toList =
      ['"', '\\', '"', '\\', '\\', '\\', 'u', '{', '1', '}', 'é', '"'] := by decide
  refine ⟨.inr rfl, rfl, (htext rfl).2.1 _, ?_, rfl, hbytes rfl [0x22, 0x0a, 0xc3]⟩
  rw [← hsample]
  exact hquoted '"' (.inr rfl) _

end DeferredLog.Display
