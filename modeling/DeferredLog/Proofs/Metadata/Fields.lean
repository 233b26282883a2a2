import DeferredLog.Metadata.RecordLayout
import DeferredLog.Proofs.Text.Numeral
import Mathlib.Data.List.Forall2

/-!
# The fields of a record

A record is its fields, joined by colons. Splitting at colons gives them back, the message in pieces if it
holds colons itself; as no other field does, the pieces of the message are those that the fields before
and after it leave over. So a text has one split at most, and a record that is written field by field is
read so:

    OneMessage keys → (parts? keys text = some parts ↔ Splits keys text parts)        (parts?_eq_some_iff)
    fields? (names.map plainKey) ([':'].intercalate (names.map value)) =
      if '\n' ∈ value message then none else some (names.map fun n => (n, value n))
                                                                          (fields?_intercalate)

The one text that does not come back is a message with a line feed.
-/

namespace DeferredLog

/-- A name in tags is that of one level. -/
theorem Level.ofTagName?_eq_some_iff {name : String} {level : Level} :
    ofTagName? name = some level ↔ name = level.tagName := by
  constructor
  · intro h
    unfold ofTagName? at h
    have hname := List.find?_some h
    exact (of_decide_eq_true hname).symm
  · rintro rfl
    cases level <;> rfl

namespace RecordLayout

open Recovering

/-! ## Splitting -/

section
variable {c : Char} {cs : List Char} {before after : List (List Char)}

theorem splitAt_eq_splitOn (c : Char) (cs : List Char) : splitAt c cs = cs.splitOn c := by
  induction cs with
  | nil => rw [splitAt, List.splitOn_nil]
  | cons d ds ih =>
    obtain ⟨p, ps, hps⟩ := List.exists_cons_of_ne_nil (List.splitOn_ne_nil c ds)
    rw [splitAt, ih, List.splitOn_cons_eq_if_modifyHead, hps]
    by_cases h : d = c <;> simp [h]

/-- No piece holds a separator. -/
theorem not_mem_of_mem_splitAt {p : List Char} (h : p ∈ splitAt c cs) : c ∉ p := by
  induction cs generalizing p with
  | nil =>
    rw [splitAt, List.mem_singleton] at h
    exact h ▸ List.not_mem_nil
  | cons d ds ih =>
    rw [splitAt] at h
    split at h
    · cases h
    · next first rest hds =>
      rw [hds] at ih
      split at h
      · rcases List.mem_cons.mp h with rfl | h
        · exact List.not_mem_nil
        · exact ih h
      · next hne =>
        rcases List.mem_cons.mp h with rfl | h
        · exact List.mem_cons.not.mpr (not_or.mpr ⟨Ne.symm hne, ih List.mem_cons_self⟩)
        · exact ih (List.mem_cons_of_mem _ h)

theorem splitAt_injective {ds : List Char} (h : splitAt c cs = splitAt c ds) : cs = ds := by
  rw [splitAt_eq_splitOn, splitAt_eq_splitOn] at h
  calc cs = [c].intercalate (cs.splitOn c) := (List.intercalate_splitOn c).symm
    _ = [c].intercalate (ds.splitOn c) := by rw [h]
    _ = ds := List.intercalate_splitOn c

/-- Texts without a separator are had back from their join. -/
theorem splitAt_intercalate {parts : List (List Char)} (hparts : ∀ p ∈ parts, c ∉ p)
    (hne : parts ≠ []) : splitAt c ([c].intercalate parts) = parts := by
  rw [splitAt_eq_splitOn, List.splitOn_intercalate c hparts hne]

theorem splitAt_append_cons (cs ds : List Char) :
    splitAt c (cs ++ c :: ds) = splitAt c cs ++ splitAt c ds := by
  simp only [splitAt_eq_splitOn, List.splitOn_append_cons_self]

/-- A join has the characters of its parts and those of the separator. -/
theorem not_mem_intercalate {parts : List (List Char)} (hcs : c ∉ cs) (hparts : ∀ p ∈ parts, c ∉ p) :
    c ∉ cs.intercalate parts := by
  induction parts with
  | nil => exact List.not_mem_nil
  | cons p ps ih =>
    have hp := hparts p List.mem_cons_self
    have hps := ih fun q hq => hparts q (List.mem_cons_of_mem _ hq)
    cases ps with
    | nil => rwa [List.intercalate_singleton]
    | cons q qs =>
      rw [List.intercalate_cons_cons, List.mem_append, List.mem_append]
      exact not_or.mpr ⟨not_or.mpr ⟨hp, hcs⟩, hps⟩

/-- One text among them may hold separators: it comes back in pieces. -/
theorem splitAt_intercalate_around (hbefore : ∀ p ∈ before, c ∉ p) (hafter : ∀ p ∈ after, c ∉ p) :
    splitAt c ([c].intercalate (before ++ cs :: after)) = before ++ splitAt c cs ++ after := by
  induction before with
  | nil =>
    cases after with
    | nil => simp
    | cons p ps =>
      rw [List.nil_append, List.intercalate_cons_of_ne_nil (List.cons_ne_nil p ps), List.append_assoc,
        List.singleton_append, splitAt_append_cons, splitAt_intercalate hafter (List.cons_ne_nil p ps),
        List.nil_append]
  | cons p ps ih =>
    have hp : splitAt c p = [p] := by
      simpa using @splitAt_intercalate c [p] (by simpa using hbefore p) (by simp)
    rw [List.cons_append, List.intercalate_cons_of_ne_nil (by simp), List.append_assoc,
      List.singleton_append, splitAt_append_cons, hp, ih fun q hq => hbefore q (List.mem_cons_of_mem _ hq)]
    rfl

end

/-- A field of a header is split at its first equals sign. -/
theorem splitField_append {name value : List Char} (h : '=' ∉ name) :
    splitField (name ++ '=' :: value) = (name, value) := by
  have hname : ∀ c ∈ name, (decide (c ≠ '=')) = true := by
    intro c hc
    exact decide_eq_true fun heq => h (heq ▸ hc)
  unfold splitField
  rw [List.takeWhile_append_of_pos hname, List.dropWhile_append_of_pos hname]
  simp

/-! ## Keys and fields -/

/-- The key of fields of a name. -/
def plainKey (name : List Char) : Key := ⟨name, false⟩

/-- The name of the message. -/
def messageName : List Char := "msg".toList

theorem isMessage_plainKey {name : List Char} : (plainKey name).isMessage = true ↔ name = messageName := by
  simp [Key.isMessage, plainKey, messageName]

/-- Only a message can be refused. -/
theorem accepts_plainKey (name text : List Char) :
    (plainKey name).accepts text = true ↔ (name = messageName → '\n' ∉ text) := by
  by_cases h : name = messageName
  · rw [Key.accepts, if_pos (isMessage_plainKey.mpr h)]
    simp [h]
  · rw [Key.accepts, if_neg (mt isMessage_plainKey.mp h)]
    simp [h, plainKey]

/-- Whether a text may be the name of a field: a word that no digit starts. -/
def IsIdentifier (name : List Char) : Prop :=
  name ≠ [] ∧ (∀ c ∈ name, isWord c = true) ∧ name.head?.any Char.isDigit = false

instance (name : List Char) : Decidable (IsIdentifier name) :=
  decidable_of_iff (name ≠ [] ∧ name.all isWord = true ∧ name.head?.any Char.isDigit = false)
    (and_congr_right fun _ => and_congr_left fun _ => List.all_eq_true)

/-- A key in angle brackets names its field. -/
theorem key?_of_isIdentifier {name : List Char} (h : IsIdentifier name) :
    key? ('<' :: name ++ ['>']) = some (plainKey name) := by
  obtain ⟨hne, hword, -⟩ := h
  have hplain : Hint.dropFinalLineFeed ('<' :: name ++ ['>']) = '<' :: name ++ ['>'] := by
    rw [Hint.dropFinalLineFeed, List.getLast?_concat, if_neg (by decide)]
  have hall : name.all isWord = true := List.all_eq_true.mpr hword
  have hempty : name.isEmpty = false := by simpa using hne
  unfold key?
  rw [hplain]
  simp [hall, hempty, plainKey]

theorem readKeys_of_isIdentifier {names : List (List Char)}
    (h : ∀ name ∈ names, IsIdentifier name) :
    readKeys (names.map fun name => '<' :: name ++ ['>']) = .ok (names.map plainKey) := by
  induction names with
  | nil => rfl
  | cons name names ih =>
    rw [List.map_cons, readKeys, key?_of_isIdentifier (h name List.mem_cons_self),
      ih fun n hn => h n (List.mem_cons_of_mem _ hn)]
    rfl

/-- Distinct identifiers can all name fields. -/
theorem unusable?_of_isIdentifier {names seen : List (List Char)}
    (h : ∀ name ∈ names, IsIdentifier name) (hnodup : names.Nodup)
    (hseen : ∀ name ∈ names, name ∉ seen) : unusable? seen (names.map plainKey) = none := by
  induction names generalizing seen with
  | nil => rfl
  | cons name names ih =>
    obtain ⟨hname, hnames⟩ := List.nodup_cons.mp hnodup
    have hdigit : (plainKey name).name.head?.any Char.isDigit = false := (h name List.mem_cons_self).2.2
    have hnew : seen.contains (plainKey name).name = false := by
      simpa [plainKey] using hseen name List.mem_cons_self
    rw [List.map_cons, unusable?, hdigit, hnew]
    show unusable? (name :: seen) (names.map plainKey) = none
    refine ih (fun n hn => h n (List.mem_cons_of_mem _ hn)) hnames fun n hn => ?_
    rw [List.mem_cons, not_or]
    exact ⟨fun heq => hname (heq ▸ hn), hseen n (List.mem_cons_of_mem _ hn)⟩

/-! ## Splits -/

/-- Only the part of the message may hold colons. -/
def Key.Fits (key : Key) (part : List Char) : Prop := key.isMessage = false → ':' ∉ part

/-- A text is split into one part for each key: the parts are joined by colons, and fit their keys. -/
structure Splits (keys : List Key) (text : List Char) (parts : List (List Char)) : Prop where
  fits : List.Forall₂ Key.Fits keys parts
  join : [':'].intercalate parts = text

/-- One key is that of the message. -/
def OneMessage (keys : List Key) : Prop :=
  ∃ before message after, keys = before ++ message :: after ∧ message.isMessage = true ∧
    (∀ key ∈ before, key.isMessage = false) ∧ ∀ key ∈ after, key.isMessage = false

section
variable {keys before after : List Key} {text : List Char} {parts : List (List Char)}

theorem oneMessage_of_nodup {message : Key} (hmem : message ∈ keys) (hmessage : message.isMessage = true)
    (hnodup : (keys.map Key.name).Nodup) : OneMessage keys := by
  obtain ⟨before, after, rfl⟩ := List.append_of_mem hmem
  have hother : ∀ key : Key, key.name ≠ message.name → key.isMessage = false := by
    intro key hne
    refine decide_eq_false fun heq => hne ?_
    rw [heq, of_decide_eq_true hmessage]
  rw [List.map_append, List.map_cons, List.nodup_append, List.nodup_cons] at hnodup
  obtain ⟨-, ⟨hafter, -⟩, hbefore⟩ := hnodup
  refine ⟨before, message, after, rfl, hmessage, fun key hkey => hother key ?_,
    fun key hkey => hother key fun heq => hafter (heq ▸ List.mem_map_of_mem hkey)⟩
  exact hbefore _ (List.mem_map_of_mem hkey) _ List.mem_cons_self

/-- The message is had at the place of its key. -/
theorem length_takeWhile_isMessage (hbefore : ∀ key ∈ before, key.isMessage = false) {message : Key}
    (hmessage : message.isMessage = true) (after : List Key) :
    ((before ++ message :: after).takeWhile fun k => !k.isMessage).length = before.length := by
  rw [List.takeWhile_append_of_pos fun key hkey => by rw [hbefore key hkey]; rfl]
  simp [hmessage]

/-- Parts before and after the message are one per key, the pieces between them make up the message. -/
theorem parts?_of_splitAt {lefts pieces rights : List (List Char)}
    (hsplit : splitAt ':' text = lefts ++ pieces ++ rights) (hpieces : pieces ≠ [])
    (hplace : (keys.takeWhile fun k => !k.isMessage).length = lefts.length)
    (hkeys : keys.length = lefts.length + rights.length + 1) :
    parts? keys text = some (lefts ++ [':'].intercalate pieces :: rights) := by
  have hpos : 0 < pieces.length := List.length_pos_iff.mpr hpieces
  have hlength : (lefts ++ pieces ++ rights).length = lefts.length + pieces.length + rights.length := by
    simp only [List.length_append]
  have hafter : keys.length - lefts.length - 1 = rights.length := by omega
  have hcount : (lefts ++ pieces ++ rights).length - lefts.length - rights.length = pieces.length := by
    omega
  have hend : (lefts ++ pieces ++ rights).length - rights.length = (lefts ++ pieces).length := by
    rw [List.length_append, Nat.add_sub_cancel]
  have hmiddle : ((lefts ++ pieces ++ rights).drop lefts.length).take pieces.length = pieces := by
    rw [List.append_assoc, List.drop_left, List.take_left]
  unfold parts?
  dsimp only
  rw [hsplit, hplace, hafter, if_neg (by omega), hcount, hend, hmiddle, List.drop_left,
    List.append_assoc lefts pieces rights, List.take_left, List.append_assoc, List.singleton_append]

/-- A list that is long enough has parts of given lengths at both ends, and something between them. -/
theorem exists_middle {pieces : List (List Char)} {m n : Nat} (h : m + n < pieces.length) :
    ∃ lefts middle rights, pieces = lefts ++ middle ++ rights ∧ lefts.length = m ∧
      rights.length = n ∧ middle ≠ [] := by
  refine ⟨pieces.take m, (pieces.drop m).take (pieces.length - m - n),
    pieces.drop (pieces.length - n), ?_, ?_, ?_, ?_⟩
  · have hdrop : (pieces.drop m).drop (pieces.length - m - n) = pieces.drop (pieces.length - n) := by
      rw [List.drop_drop]
      congr 1
      omega
    rw [List.append_assoc, ← hdrop, List.take_append_drop, List.take_append_drop]
  · rw [List.length_take]
    omega
  · rw [List.length_drop]
    omega
  · refine List.ne_nil_of_length_pos ?_
    rw [List.length_take, List.length_drop]
    omega

theorem fits_iff_of_length (hlength : keys.length = parts.length)
    (hkeys : ∀ key ∈ keys, key.isMessage = false) :
    List.Forall₂ Key.Fits keys parts ↔ ∀ p ∈ parts, ':' ∉ p := by
  induction parts generalizing keys with
  | nil => simp [List.length_eq_zero_iff.mp hlength]
  | cons p parts ih =>
    obtain ⟨key, keys, rfl⟩ := List.exists_cons_of_length_eq_add_one hlength
    rw [List.forall_mem_cons] at hkeys ⊢
    rw [List.forall₂_cons, ih (Nat.succ.inj hlength) hkeys.2]
    simp [Key.Fits, hkeys.1]

/-- Parts that fit keys have one for the message, and the others around it. -/
theorem exists_around_of_fits {message : Key}
    (hfits : List.Forall₂ Key.Fits (before ++ message :: after) parts) :
    ∃ lefts m rights, parts = lefts ++ m :: rights ∧ List.Forall₂ Key.Fits before lefts ∧
      List.Forall₂ Key.Fits after rights := by
  have hflip : List.Forall₂ (flip Key.Fits) parts (before ++ message :: after) :=
    List.Forall₂.flip hfits
  have hlefts : List.Forall₂ Key.Fits before (parts.take before.length) :=
    (List.forall₂_take_append _ _ _ hflip).flip
  have hrest : List.Forall₂ Key.Fits (message :: after) (parts.drop before.length) :=
    (List.forall₂_drop_append _ _ _ hflip).flip
  obtain ⟨m, rights, -, hrights, hdrop⟩ := List.forall₂_cons_left_iff.mp hrest
  refine ⟨parts.take before.length, m, rights, ?_, hlefts, hrights⟩
  rw [← hdrop, List.take_append_drop]

/-- A text that has parts has a piece for each key but the message, and one at least between them. -/
theorem exists_pieces_of_parts? {message : Key} (h : parts? keys text = some parts)
    (hkeys : keys = before ++ message :: after)
    (hplace : (keys.takeWhile fun k => !k.isMessage).length = before.length) :
    ∃ lefts pieces rights, splitAt ':' text = lefts ++ pieces ++ rights ∧
      lefts.length = before.length ∧ rights.length = after.length ∧ pieces ≠ [] ∧
      parts = lefts ++ [':'].intercalate pieces :: rights := by
  have hlength : keys.length = before.length + after.length + 1 := by
    rw [hkeys, List.length_append, List.length_cons]
    omega
  have hlong : before.length + after.length < (splitAt ':' text).length := by
    by_contra hshort
    unfold parts? at h
    dsimp only at h
    rw [if_pos (by omega)] at h
    cases h
  obtain ⟨lefts, pieces, rights, hsplit, hlefts, hrights, hpieces⟩ := exists_middle hlong
  rw [parts?_of_splitAt hsplit hpieces (hplace.trans hlefts.symm) (by omega)] at h
  exact ⟨lefts, pieces, rights, hsplit, hlefts, hrights, hpieces, (Option.some.inj h).symm⟩

/-- A text has the parts into which it is split, and no other split. -/
theorem parts?_eq_some_iff (hkeys : OneMessage keys) :
    parts? keys text = some parts ↔ Splits keys text parts := by
  obtain ⟨before, message, after, rfl, hmessage, hbefore, hafter⟩ := hkeys
  have hplace := length_takeWhile_isMessage hbefore hmessage after
  constructor
  · intro h
    obtain ⟨lefts, pieces, rights, hsplit, hlefts, hrights, hpieces, rfl⟩ :=
      exists_pieces_of_parts? h rfl hplace
    have hnocolon : ∀ p ∈ lefts ++ pieces ++ rights, ':' ∉ p := by
      rw [← hsplit]
      exact fun p hp => not_mem_of_mem_splitAt hp
    simp only [List.mem_append] at hnocolon
    have hleft (p : List Char) (hp : p ∈ lefts) : ':' ∉ p := hnocolon p (.inl (.inl hp))
    have hpiece (p : List Char) (hp : p ∈ pieces) : ':' ∉ p := hnocolon p (.inl (.inr hp))
    have hright (p : List Char) (hp : p ∈ rights) : ':' ∉ p := hnocolon p (.inr hp)
    refine ⟨List.rel_append ((fits_iff_of_length hlefts.symm hbefore).mpr hleft)
      (.cons (fun h => ?_) ((fits_iff_of_length hrights.symm hafter).mpr hright)), ?_⟩
    · rw [hmessage] at h
      cases h
    · refine splitAt_injective (c := ':') ?_
      rw [splitAt_intercalate_around hleft hright, hsplit, splitAt_intercalate hpiece hpieces]
  · rintro ⟨hfits, rfl⟩
    obtain ⟨lefts, m, rights, rfl, hlefts, hrights⟩ := exists_around_of_fits hfits
    have hleft := (fits_iff_of_length hlefts.length_eq hbefore).mp hlefts
    have hright := (fits_iff_of_length hrights.length_eq hafter).mp hrights
    have hpieces : splitAt ':' m ≠ [] := by
      rw [splitAt_eq_splitOn]
      exact List.splitOn_ne_nil _ _
    have hlength : (before ++ message :: after).length = lefts.length + rights.length + 1 := by
      rw [List.length_append, List.length_cons, hlefts.length_eq, hrights.length_eq]
      omega
    rw [parts?_of_splitAt (splitAt_intercalate_around hleft hright) hpieces
      (hplace.trans hlefts.length_eq) hlength, splitAt_eq_splitOn, List.intercalate_splitOn]

end

section
variable {names : List (List Char)} {value : List Char → List Char}

/-- A record that is written field by field is read field by field, unless its message holds a line
feed. -/
theorem fields?_intercalate (hmem : messageName ∈ names)
    (hcolon : ∀ name ∈ names, name ≠ messageName → ':' ∉ value name) (hnodup : names.Nodup) :
    fields? (names.map plainKey) ([':'].intercalate (names.map value)) =
      if '\n' ∈ value messageName then none else some (names.map fun name => (name, value name)) := by
  have hnames : (names.map plainKey).map Key.name = names := by
    rw [List.map_map]
    exact List.map_id names
  have hkeys : OneMessage (names.map plainKey) :=
    oneMessage_of_nodup (List.mem_map_of_mem hmem) (isMessage_plainKey.mpr rfl) (by rwa [hnames])
  have hparts : parts? (names.map plainKey) ([':'].intercalate (names.map value)) =
      some (names.map value) := by
    refine (parts?_eq_some_iff hkeys).mpr ⟨?_, rfl⟩
    rw [List.forall₂_map_left_iff, List.forall₂_map_right_iff, List.forall₂_same]
    exact fun name hname hother => hcolon name hname (mt isMessage_plainKey.mpr (by simp [hother]))
  have haccepts : ((names.map plainKey).zip (names.map value)).all (fun x => x.1.accepts x.2) =
      true ↔ '\n' ∉ value messageName := by
    rw [List.zip_map', List.all_map, List.all_eq_true]
    constructor
    · intro h
      exact (accepts_plainKey _ _).mp (h messageName hmem) rfl
    · intro h name _
      exact (accepts_plainKey _ _).mpr fun heq => heq ▸ h
  unfold fields?
  rw [hparts]
  dsimp only
  by_cases hfeed : '\n' ∈ value messageName
  · rw [if_pos hfeed]
    exact if_neg (mt haccepts.mp (not_not.mpr hfeed))
  · rw [if_neg hfeed, List.map_map]
    refine (if_pos (haccepts.mpr hfeed)).trans ?_
    rw [List.zip_map']
    rfl

/-- A field that the records have is its text, any other one empty. -/
theorem field_map (name : String) :
    field name (names.map fun n => (n, value n)) =
      if name.toList ∈ names then String.ofList (value name.toList) else "" := by
  unfold field
  by_cases h : name.toList ∈ names
  · rw [if_pos h, List.lookup_graph value h]
    rfl
  · have hnone : (names.map fun n => (n, value n)).lookup name.toList = none := by
      rw [List.lookup_eq_none_iff]
      rintro ⟨n, v⟩ hnv
      obtain ⟨m, hm, heq⟩ := List.mem_map.mp hnv
      obtain ⟨rfl, -⟩ := Prod.mk.inj heq
      have hne : name.toList ≠ m := fun heq => h (heq ▸ hm)
      simpa using hne
    rw [if_neg h, hnone]
    rfl

end

/-! ## What fields state -/

/-- The texts that a level field may hold. -/
def IsLevelName (name : String) : Prop :=
  name = "" ∨ name = timestampName ∨ ∃ level : Level, name = level.tagName

theorem ofTagName?_isSome_iff {name : String} :
    (Level.ofTagName? name).isSome = true ↔ ∃ level : Level, name = level.tagName := by
  simp only [Option.isSome_iff_exists, Level.ofTagName?_eq_some_iff]

instance (name : String) : Decidable (IsLevelName name) :=
  decidable_of_iff (name = "" ∨ name = timestampName ∨ (Level.ofTagName? name).isSome = true)
    (or_congr_right (or_congr_right ofTagName?_isSome_iff))

/-- The tag for a level name. -/
def tagOf (name : String) : String := tagStart ++ if name = "" then "fmt" else name

/-- The line number for a field of digits. -/
def lineOf (line : String) : Option SourceLine :=
  if line = "" then none else some (.number (Nat.ofDigitChars 10 line.toList 0))

/-- A level name stands for its level, or for none. -/
theorem levelAndTag_of_isLevelName {name : String} (h : IsLevelName name) (offset : Nat) :
    levelAndTag offset name = .ok (Level.ofTagName? name, tagOf name) := by
  rcases h with rfl | rfl | ⟨level, rfl⟩
  · rfl
  · rfl
  · cases level <;> rfl

/-- Only the name of the timestamp format gives its tag. -/
theorem tagOf_eq_timestampTag_iff {name : String} : tagOf name = timestampTag ↔ name = timestampName := by
  have htag : timestampTag = tagStart ++ timestampName := rfl
  rw [tagOf, htag, String.append_right_inj]
  split
  · next hname =>
    subst hname
    exact iff_of_false (by decide) (by decide)
  · exact Iff.rfl

theorem lineNumber_of_digits {line : String} (h : ∀ c ∈ line.toList, c.isDigit = true) :
    lineNumber line = .ok (lineOf line) := by
  have hdigit : ∀ c ∈ line.toList, Text.isDigit c = true := by
    intro c hc
    rw [Text.isDigit, Text.digitValue?_of_isDigit (h c hc)]
    rfl
  have hlike : line.toList.all Text.isDigitLike = true := by
    refine List.all_eq_true.mpr fun c hc => ?_
    rw [Text.isDigitLike, hdigit c hc, Bool.true_or]
  unfold lineNumber lineOf
  dsimp only
  by_cases hempty : line = ""
  · rw [if_pos hempty, if_pos (by simp [hempty])]
  · have hne : line.toList.isEmpty = false := by simpa using hempty
    rw [if_neg hempty, hne, hlike, if_neg (by simp), Text.decimal?, hne, List.all_eq_true.mpr hdigit]
    simp [Text.digitsValue_eq_ofDigitChars h]

end RecordLayout

end DeferredLog
