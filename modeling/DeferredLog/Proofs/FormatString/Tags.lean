import DeferredLog.Proofs.Text.Numeral

/-!
# Type tags

`Tag type tag` says which tags denote a type, without a reader. Numbers in a tag may use the digits of any
script and may start with zeros, and there may be blanks in front of the length of a byte array. Reading
accepts exactly these tags, with blanks around them:

    parseTag tag = .ok type ↔ Tag type tag                                        (parseTag_eq_ok_iff)
    parse text = .ok type ↔ IsTypeText type text                                     (parse_eq_ok_iff)

The tags of fixed words are looked up first, so no other tag may be one of them; the remaining kinds differ
in their first characters. Every type has a tag of its own, which is read back (`parse_name`).
-/

namespace DeferredLog

open Text

/-! ## Characters of tags -/

/-- Digits are no blanks. -/
theorem Text.isBlank_of_isDigit {c : Char} (h : isDigit c = true) : isBlank c = false := by
  have hall : ∀ z ∈ decimalZeros, ∀ k < 10, isBlank (Char.ofNat (z + k)) = false := by decide
  rw [isDigit, digitValue?, List.findSome?_isSome_iff] at h
  obtain ⟨z, hz, hc⟩ := h
  split at hc
  · next hrange =>
    have hblank := hall z hz (c.toNat - z) (by omega)
    rwa [show z + (c.toNat - z) = c.toNat by omega, Char.ofNat_toNat] at hblank
  · cases hc

section
variable {p : Char → Bool} {cs before after : List Char}

/-- Trimming takes off what stands around a text that has no character of the class at its ends. -/
theorem Text.trim_append (hbefore : ∀ c ∈ before, p c = true) (hafter : ∀ c ∈ after, p c = true)
    (hfirst : ∀ c, cs.head? = some c → p c = false) (hlast : ∀ c, cs.getLast? = some c → p c = false) :
    trim p (before ++ (cs ++ after)) = cs := by
  rw [trim, List.dropWhile_append_of_pos hbefore]
  have hreverse : ∀ c ∈ after.reverse, p c = true := fun c hc => hafter c (List.mem_reverse.mp hc)
  have hrest : (cs.reverse).dropWhile p = cs.reverse := dropWhile_eq_self (by rwa [List.head?_reverse])
  cases cs with
  | nil =>
    have hall : (after ++ []).dropWhile p = [] := List.dropWhile_append_of_pos hafter
    rw [List.append_nil] at hall
    rw [List.nil_append, hall]
    rfl
  | cons c cs =>
    have hfront : ((c :: cs) ++ after).dropWhile p = (c :: cs) ++ after :=
      dropWhile_eq_self (by simpa using hfirst)
    rw [hfront, List.reverse_append, List.dropWhile_append_of_pos hreverse, hrest, List.reverse_reverse]

/-- A text is what is left of it when trimmed, and characters of the class around that. -/
theorem Text.exists_trim (p : Char → Bool) (cs : List Char) :
    ∃ before after, cs = before ++ (trim p cs ++ after) ∧ (∀ c ∈ before, p c = true) ∧
      ∀ c ∈ after, p c = true := by
  refine ⟨cs.takeWhile p, ((cs.dropWhile p).reverse.takeWhile p).reverse, ?_, fun c hc => ?_,
    fun c hc => ?_⟩
  · rw [trim, ← List.reverse_append, List.takeWhile_append_dropWhile, List.reverse_reverse,
      List.takeWhile_append_dropWhile]
  · exact List.all_eq_true.mp List.all_takeWhile c hc
  · exact List.all_eq_true.mp List.all_takeWhile c (List.mem_reverse.mp hc)

end

namespace ArgType

/-! ## Tags -/

/-- A tag denotes a type. -/
inductive Tag : ArgType → List Char → Prop
  /-- Fixed words. -/
  | word {type : ArgType} : type ∈ primitives → Tag type type.name.toList
  | byteArray {blanks ds : List Char} : (∀ c ∈ blanks, isBlank c = true) → isNumeral ds = true →
      Tag (.byteArray (digitsValue ds)) ("[u8;".toList ++ (blanks ++ (ds ++ [']'])))
  | nested (target : IndexTag) : Tag (.nested target) ('@' :: target.digits)
  | bitfield (r : BitRange) {low high : List Char} : isNumeral low = true → isNumeral high = true →
      digitsValue low = r.low → digitsValue high = r.high →
      Tag (.bitfield r) ('u' :: (Nat.toDigits 10 r.backing.bits ++ '[' ::
        (low ++ ("..=".toList ++ (high ++ [']'])))))

/-- A tag with blanks around it denotes a type. -/
def IsTypeText (type : ArgType) (text : List Char) : Prop :=
  ∃ before tag after, text = before ++ (tag ++ after) ∧ (∀ c ∈ before, isBlank c = true) ∧
    (∀ c ∈ after, isBlank c = true) ∧ Tag type tag

variable {type : ArgType} {tag text rest : List Char} {r : BitRange} {backing : Backing}

/-! ## Reading a tag -/

theorem not_isDigit_of_head?_close : ∀ c, [']'].head? = some c → isDigit c = false := by
  intro c hc
  cases hc
  decide

/-- A fixed word is looked up. -/
theorem parseTag_of_mem_primitives (h : type ∈ primitives) : parseTag type.name.toList = .ok type := by
  have hall : ∀ p ∈ primitives, primitives.find? (fun q => q.name.toList = p.name.toList) = some p := by
    decide
  rw [parseTag, hall type h]

example : primitives.map name = ["u8", "u16", "u24", "u32", "u64", "u128", "usize", "i8", "i16", "i32",
    "i64", "i128", "isize", "f32", "f64", "bool", "char", "str", "istr", "[u8]", "?", "[?]"] := by decide

theorem find?_primitives_eq_none (h : ∀ p ∈ primitives, p.name.toList ≠ tag) :
    primitives.find? (fun p => p.name.toList = tag) = none := by
  rw [List.find?_eq_none]
  intro p hp
  simpa using h p hp

theorem byteArrayLength?_eq_some_iff {n : Nat} :
    byteArrayLength? tag = some n ↔ ∃ blanks ds, tag = "[u8;".toList ++ (blanks ++ (ds ++ [']'])) ∧
      (∀ c ∈ blanks, isBlank c = true) ∧ isNumeral ds = true ∧ digitsValue ds = n := by
  constructor
  · intro h
    unfold byteArrayLength? at h
    split at h
    · next rest hrest =>
      obtain ⟨ds, hds, hvalue⟩ := Option.map_eq_some_iff.mp h
      obtain ⟨hdrop, hnumeral⟩ := (numeralBefore?_eq_some_iff not_isDigit_of_head?_close).mp hds
      refine ⟨rest.takeWhile isBlank, ds, ?_, fun c hc => ?_, hnumeral, hvalue⟩
      · rw [← hdrop, List.takeWhile_append_dropWhile]
        exact (List.isPrefixOf?_eq_some_iff_append_eq.mp hrest).symm
      · exact List.all_eq_true.mp List.all_takeWhile c hc
    · cases h
  · rintro ⟨blanks, ds, rfl, hblanks, hnumeral, rfl⟩
    have hstart : "[u8;".toList.isPrefixOf? ("[u8;".toList ++ (blanks ++ (ds ++ [']']))) =
        some (blanks ++ (ds ++ [']'])) := List.isPrefixOf?_eq_some_iff_append_eq.mpr rfl
    have hdrop : (blanks ++ (ds ++ [']'])).dropWhile isBlank = ds ++ [']'] := by
      rw [List.dropWhile_append_of_pos hblanks]
      obtain ⟨hne, hdigits⟩ := isNumeral_iff.mp hnumeral
      obtain ⟨d, ds, rfl⟩ := List.exists_cons_of_ne_nil hne
      apply dropWhile_eq_self
      intro c hc
      cases hc
      exact isBlank_of_isDigit (hdigits _ List.mem_cons_self)
    have hnumber : numeralBefore? [']'] (ds ++ [']']) = some ds :=
      (numeralBefore?_eq_some_iff not_isDigit_of_head?_close).mpr ⟨rfl, hnumeral⟩
    rw [byteArrayLength?, hstart]
    dsimp only
    rw [hdrop, hnumber]
    rfl

theorem indexTag?_eq_some_iff {target : IndexTag} :
    indexTag? tag = some target ↔ tag = '@' :: target.digits := by
  constructor
  · intro h
    unfold indexTag? at h
    split at h
    · split at h
      · obtain rfl := Option.some.inj h
        rfl
      · cases h
    · cases h
  · rintro rfl
    exact dif_pos target.isNumeral

theorem backing?_eq_some_iff :
    backing? tag = some (backing, rest) ↔
      tag = 'u' :: (Nat.toDigits 10 backing.bits ++ '[' :: rest) := by
  constructor
  · intro h
    unfold backing? at h
    split at h
    case h_5 => cases h
    all_goals
      obtain ⟨rfl, rfl⟩ := Prod.mk.inj (Option.some.inj h)
      rfl
  · rintro rfl
    cases backing <;> rfl

theorem bitRange?_eq_some_iff {low high : Nat} :
    bitRange? tag = some (backing, low, high) ↔ ∃ ds es, tag = 'u' :: (Nat.toDigits 10 backing.bits ++
      '[' :: (ds ++ ("..=".toList ++ (es ++ [']'])))) ∧ isNumeral ds = true ∧ isNumeral es = true ∧
        digitsValue ds = low ∧ digitsValue es = high := by
  constructor
  · intro h
    unfold bitRange? at h
    split at h
    · cases h
    · next hbacking =>
      split at h
      · cases h
      · next hfirst =>
        split at h
        · cases h
        · next hdots =>
          split at h
          · cases h
          · next hsecond =>
            obtain ⟨rfl, hvalues⟩ := Prod.mk.inj (Option.some.inj h)
            obtain ⟨hlow, hhigh⟩ := Prod.mk.inj hvalues
            obtain ⟨rfl, hds, -⟩ := takeNumeral?_eq_some_iff.mp hfirst
            obtain ⟨rfl, hes⟩ := (numeralBefore?_eq_some_iff not_isDigit_of_head?_close).mp hsecond
            obtain rfl := List.isPrefixOf?_eq_some_iff_append_eq.mp hdots
            exact ⟨_, _, backing?_eq_some_iff.mp hbacking, hds, hes, hlow, hhigh⟩
  · rintro ⟨ds, es, rfl, hds, hes, rfl, rfl⟩
    have hlow : takeNumeral? (ds ++ ("..=".toList ++ (es ++ [']']))) =
        some (ds, "..=".toList ++ (es ++ [']'])) :=
      takeNumeral?_eq_some_iff.mpr ⟨rfl, hds, fun c hc => by cases hc; decide⟩
    have hdots : "..=".toList.isPrefixOf? ("..=".toList ++ (es ++ [']'])) = some (es ++ [']']) :=
      List.isPrefixOf?_eq_some_iff_append_eq.mpr rfl
    have hhigh : numeralBefore? [']'] (es ++ [']']) = some es :=
      (numeralBefore?_eq_some_iff not_isDigit_of_head?_close).mpr ⟨rfl, hes⟩
    rw [bitRange?, backing?_eq_some_iff.mpr rfl]
    dsimp only
    rw [hlow]
    dsimp only
    rw [hdots]
    dsimp only
    rw [hhigh]

theorem parseTag_of_tag (h : Tag type tag) : parseTag tag = .ok type := by
  cases h with
  | word h => exact parseTag_of_mem_primitives h
  | @byteArray blanks ds hblanks hds =>
    have hwords : ∀ p ∈ primitives, p.name.toList.take 4 ≠ "[u8;".toList := by decide
    have hfind : primitives.find? (fun p =>
        p.name.toList = "[u8;".toList ++ (blanks ++ (ds ++ [']']))) = none :=
      find?_primitives_eq_none fun p hp heq => hwords p hp (by rw [heq]; rfl)
    rw [parseTag, hfind]
    dsimp only
    rw [byteArrayLength?_eq_some_iff.mpr ⟨blanks, ds, rfl, hblanks, hds, rfl⟩]
  | nested target =>
    have hwords : ∀ p ∈ primitives, p.name.toList.head? ≠ some '@' := by decide
    have hfind : primitives.find? (fun p => p.name.toList = '@' :: target.digits) = none :=
      find?_primitives_eq_none fun p hp heq => hwords p hp (by rw [heq]; rfl)
    rw [parseTag, hfind]
    dsimp only
    rw [show byteArrayLength? ('@' :: target.digits) = none from rfl]
    dsimp only
    rw [indexTag?_eq_some_iff.mpr rfl]
  | @bitfield r low high hlow hhigh hlow' hhigh' =>
    have hwords : ∀ p ∈ primitives, ¬ (p.name.toList.head? = some 'u' ∧ '[' ∈ p.name.toList) := by decide
    have hfind : primitives.find? (fun p => p.name.toList = 'u' :: (Nat.toDigits 10 r.backing.bits ++
        '[' :: (low ++ ("..=".toList ++ (high ++ [']']))))) = none :=
      find?_primitives_eq_none fun p hp heq => hwords p hp (by rw [heq]; exact ⟨rfl, by simp⟩)
    rw [parseTag, hfind]
    dsimp only
    rw [show byteArrayLength? ('u' :: _) = none from rfl]
    dsimp only
    rw [show indexTag? ('u' :: _) = none from rfl]
    dsimp only
    rw [bitRange?_eq_some_iff.mpr ⟨low, high, rfl, hlow, hhigh, hlow', hhigh'⟩]
    dsimp only
    rw [ofBitRange, dif_pos r.low_lt_high, dif_pos r.high_lt_bits]

/-- The tags that can be read are those that denote types. -/
theorem parseTag_eq_ok_iff : parseTag tag = .ok type ↔ Tag type tag := by
  refine ⟨fun h => ?_, parseTag_of_tag⟩
  unfold parseTag at h
  split at h
  · next p hfind =>
    obtain rfl := Except.ok.inj h
    obtain rfl : p.name.toList = tag := by simpa using List.find?_some hfind
    exact .word (List.mem_of_find?_eq_some hfind)
  · split at h
    · next hlength =>
      obtain rfl := Except.ok.inj h
      obtain ⟨blanks, ds, rfl, hblanks, hds, rfl⟩ := byteArrayLength?_eq_some_iff.mp hlength
      exact .byteArray hblanks hds
    · split at h
      · next hindex =>
        obtain rfl := Except.ok.inj h
        rw [indexTag?_eq_some_iff.mp hindex]
        exact .nested _
      · split at h
        · next hrange =>
          unfold ofBitRange at h
          split at h
          · split at h
            · obtain rfl := Except.ok.inj h
              obtain ⟨ds, es, rfl, hds, hes, hlow, hhigh⟩ := bitRange?_eq_some_iff.mp hrange
              exact .bitfield ⟨_, _, _, _, _⟩ hds hes hlow hhigh
            · cases h
          · cases h
        · cases h

/-! ## Blanks around a tag -/

/-- A tag does not start or end with a blank. -/
theorem Tag.ends (h : Tag type tag) :
    (∀ c, tag.head? = some c → isBlank c = false) ∧ ∀ c, tag.getLast? = some c → isBlank c = false := by
  have hclose (tag : List Char) : ∀ c, (tag ++ [']']).getLast? = some c → isBlank c = false := by
    intro c hc
    obtain rfl : ']' = c := by simpa using hc
    decide
  cases h with
  | word h =>
    have hwords : ∀ p ∈ primitives, p.name.toList.head?.all (fun c => !isBlank c) = true ∧
        p.name.toList.getLast?.all (fun c => !isBlank c) = true := by decide
    obtain ⟨hfirst, hlast⟩ := hwords type h
    constructor
    · intro c hc
      simpa [hc] using hfirst
    · intro c hc
      simpa [hc] using hlast
  | @byteArray blanks ds _ _ =>
    refine ⟨fun c hc => by cases hc; decide, ?_⟩
    rw [← List.append_assoc, ← List.append_assoc]
    exact hclose _
  | nested target =>
    refine ⟨fun c hc => by cases hc; decide, fun c hc => ?_⟩
    rcases List.mem_cons.mp (List.mem_of_getLast? hc) with rfl | hmem
    · decide
    · exact isBlank_of_isDigit ((isNumeral_iff.mp target.isNumeral).2 c hmem)
  | @bitfield r low high _ _ _ _ =>
    refine ⟨fun c hc => by cases hc; decide, ?_⟩
    have hlast := hclose ('u' :: (Nat.toDigits 10 r.backing.bits ++ '[' ::
      (low ++ ("..=".toList ++ high))))
    simpa only [List.cons_append, List.append_assoc] using hlast

theorem Tag.trim_eq {before after : List Char} (h : Tag type tag)
    (hbefore : ∀ c ∈ before, isBlank c = true) (hafter : ∀ c ∈ after, isBlank c = true) :
    trim isBlank (before ++ (tag ++ after)) = tag :=
  trim_append hbefore hafter h.ends.1 h.ends.2

/-- The texts of types are tags with blanks around them. -/
theorem parse_eq_ok_iff : parse text = .ok type ↔ IsTypeText type text := by
  constructor
  · intro h
    obtain ⟨before, after, htext, hbefore, hafter⟩ := exists_trim isBlank text
    exact ⟨before, _, after, htext, hbefore, hafter, parseTag_eq_ok_iff.mp h⟩
  · rintro ⟨before, tag, after, rfl, hbefore, hafter, htag⟩
    rw [parse, htag.trim_eq hbefore hafter, parseTag_of_tag htag]

theorem IsTypeText.append_blank (h : IsTypeText type text) {c : Char} (hc : isBlank c = true) :
    IsTypeText type (text ++ [c]) := by
  obtain ⟨before, tag, after, rfl, hbefore, hafter, htag⟩ := h
  refine ⟨before, tag, after ++ [c], by simp, hbefore, fun d hd => ?_, htag⟩
  rcases List.mem_append.mp hd with hd | hd
  · exact hafter d hd
  · rwa [List.mem_singleton.mp hd]

/-- Texts of types hold no character that ends them in a directive. -/
theorem IsTypeText.not_mem (h : IsTypeText type text) {c : Char} (hc : c = ':' ∨ c = '{' ∨ c = '}') :
    c ∉ text := by
  obtain ⟨before, tag, after, rfl, hbefore, hafter, htag⟩ := h
  have hblank : isBlank c = false := by rcases hc with rfl | rfl | rfl <;> decide
  have hdigit : isDigit c = false := by rcases hc with rfl | rfl | rfl <;> decide
  have hsigns : c ∉ ['[', 'u', '8', ';', ']', '@', '.', '='] := by
    rcases hc with rfl | rfl | rfl <;> decide
  have hblanks {cs : List Char} (hcs : ∀ d ∈ cs, isBlank d = true) : c ∉ cs := by
    intro hmem
    rw [hcs c hmem] at hblank
    cases hblank
  have hdigits {ds : List Char} (hds : ∀ d ∈ ds, isDigit d = true) : c ∉ ds := by
    intro hmem
    rw [hds c hmem] at hdigit
    cases hdigit
  have hnumeral {ds : List Char} (hds : isNumeral ds = true) : c ∉ ds :=
    hdigits (isNumeral_iff.mp hds).2
  have htag : c ∉ tag := by
    cases htag with
    | word h =>
      have hwords : ∀ p ∈ primitives, ':' ∉ p.name.toList ∧ '{' ∉ p.name.toList ∧
          '}' ∉ p.name.toList := by decide
      obtain ⟨hcolon, hopen, hclose⟩ := hwords type h
      rcases hc with rfl | rfl | rfl
      · exact hcolon
      · exact hopen
      · exact hclose
    | byteArray hspace hds => simp_all [hblanks hspace, hnumeral hds]
    | nested target => simp_all [hnumeral target.isNumeral]
    | bitfield r hlow hhigh _ _ =>
      have hbits : c ∉ Nat.toDigits 10 r.backing.bits := hdigits fun _ => isDigit_of_mem_toDigits
      simp_all [hnumeral hlow, hnumeral hhigh]
  simp only [List.mem_append, not_or]
  exact ⟨hblanks hbefore, htag, hblanks hafter⟩

/-! ## The tags of types -/

theorem byteArray_name (n : Nat) :
    (byteArray n).name.toList = "[u8;".toList ++ ([' '] ++ (Nat.toDigits 10 n ++ [']'])) := by
  simp only [name, String.toList_append, Nat.toString_eq_ofList_toDigits, String.toList_ofList,
    List.append_assoc]
  rfl

theorem nested_name (target : IndexTag) : (nested target).name.toList = '@' :: target.digits := by
  simp only [name, String.toList_append, String.toList_ofList]
  rfl

theorem bitfield_name (r : BitRange) :
    (bitfield r).name.toList = 'u' :: (Nat.toDigits 10 r.backing.bits ++ '[' ::
      (Nat.toDigits 10 r.low ++ ("..=".toList ++ (Nat.toDigits 10 r.high ++ [']'])))) := by
  simp only [name, BitRange.name, String.toList_append, Nat.toString_eq_ofList_toDigits,
    String.toList_ofList, List.append_assoc]
  rfl

/-- The name of a type is a tag of it. -/
theorem tag_name (type : ArgType) : Tag type type.name.toList := by
  have hword (h : type ∈ primitives) : Tag type type.name.toList := .word h
  cases type with
  | integer k => exact hword (by cases k <;> decide)
  | float k => exact hword (by cases k <;> decide)
  | bool | char | str | istr | bytes | format | formatSlice => exact hword (by decide)
  | byteArray n =>
    have hblank : ∀ c ∈ [' '], isBlank c = true := by
      intro c hc
      rw [List.mem_singleton.mp hc]
      decide
    have htag := Tag.byteArray hblank (isNumeral_toDigits n)
    rw [digitsValue_toDigits] at htag
    rwa [byteArray_name]
  | nested target =>
    rw [nested_name]
    exact .nested target
  | bitfield r =>
    rw [bitfield_name]
    exact .bitfield r (isNumeral_toDigits _) (isNumeral_toDigits _) (digitsValue_toDigits _)
      (digitsValue_toDigits _)

/-- Every type is denoted by its tag. -/
theorem parse_name (type : ArgType) : parse type.name.toList = .ok type :=
  parse_eq_ok_iff.mpr ⟨[], _, [], by simp, by simp, by simp, tag_name type⟩

end ArgType

end DeferredLog
