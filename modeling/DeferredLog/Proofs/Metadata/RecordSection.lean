import DeferredLog.Proofs.Metadata.Discipline
import DeferredLog.Proofs.Metadata.Fields
import DeferredLog.Proofs.Text.Utf8
import DeferredLog.Proofs.Version.Alphabet

/-!
# Sections of records are recovered

A `Section` is what a record section is made from: a header and records, with any number of further NULs
behind each. Its texts are found where they were put, and each record is read as the entry that it states,
unless its message holds a line feed:

    s.WellFormed → records s.bytes = s.placed.map fun p => (p.1, encode (s.text p.2))     (records_bytes)
    p.2.IsSingleLine → s.readAt p = .ok (s.entry p.1 p.2)                          (readAt_of_isSingleLine)

So a table is built of exactly these entries, or the first message with a line feed is refused
(`build_section`).
-/

namespace DeferredLog

open Recovering

namespace RecordLayout

/-! ## What a section is made from -/

/-- A record: its texts by name, and how many further NULs follow it. -/
structure Record where
  value : String → String
  padding : Nat

/-- A record of some fields; all other ones are empty. -/
def Record.ofFields (fields : List (String × String)) (padding : Nat) : Record where
  value name := (fields.lookup name).getD ""
  padding := padding

/-- A header and the records behind it; `padding` NULs follow the one that ends the header. -/
structure Section where
  version : String
  keys : List String
  crate : Option String
  padding : Nat
  records : List Record

/-- A text, the NUL that ends it, and further ones. -/
def terminated (text : String) (padding : Nat) : List UInt8 :=
  Text.Utf8.encode text ++ List.replicate (padding + 1) 0

namespace Section

/-- The fields of the header. -/
def headerFields (s : Section) : List String :=
  ["DEFMT=" ++ s.version, "KEYS=" ++ ":".intercalate (s.keys.map fun key => "<" ++ key ++ ">")] ++
    (s.crate.map ("CRATE=" ++ ·)).toList

/-- The text of the header. -/
def header (s : Section) : String := ",".intercalate s.headerFields

/-- The text of a record. -/
def text (s : Section) (r : Record) : String := ":".intercalate (s.keys.map r.value)

/-- The bytes of the section. -/
def bytes (s : Section) : List UInt8 :=
  terminated s.header s.padding ++ s.records.flatMap fun r => terminated (s.text r) r.padding

/-- Records with their offsets, the first of which is given. -/
def placedFrom (s : Section) (offset : Nat) : List Record → List (Nat × Record)
  | [] => []
  | r :: rs => (offset, r) :: s.placedFrom (offset + (terminated (s.text r) r.padding).length) rs

/-- The records with their offsets in the section. -/
def placed (s : Section) : List (Nat × Record) :=
  s.placedFrom (terminated s.header s.padding).length s.records

/-- The text of a record under a name, empty if the section has no such key. -/
def field (s : Section) (r : Record) (name : String) : String :=
  if name ∈ s.keys then r.value name else ""

/-- The location that a record states. -/
def location (s : Section) (r : Record) : Option Location :=
  if s.field r "file" = "" then none
  else some ⟨s.field r "module", s.field r "file", lineOf (s.field r "line")⟩

/-- The entry that a record states. -/
def entry (s : Section) (offset : Nat) (r : Record) : Entry where
  index := offset
  format := .string (r.value "msg")
  level := Level.ofTagName? (s.field r "level")
  location := s.location r
  crate := .string (if s.field r "crate" = "" then s.crate.getD "" else s.field r "crate")
  tag := tagOf (s.field r "level")

/-- The entries that the records state, in their order. -/
def entries (s : Section) : List Entry := s.placed.map fun p => s.entry p.1 p.2

/-! ## Well-formed sections -/

/-- A record that fits into the section: only its message may hold colons, and nothing a NUL. -/
structure Fits (s : Section) (r : Record) : Prop where
  noNul : ∀ key ∈ s.keys, '\x00' ∉ (r.value key).toList
  noColon : ∀ key ∈ s.keys, key ≠ "msg" → ':' ∉ (r.value key).toList
  level : IsLevelName (s.field r "level")
  line : ∀ c ∈ (s.field r "line").toList, c.isDigit = true

/-- The rules that a section keeps. -/
structure WellFormed (s : Section) : Prop where
  ascii : ∀ c ∈ s.header.toList, c ≠ '\x00' ∧ c.toNat < 0x80
  crate : ∀ c ∈ s.crate, ',' ∉ c.toList
  identifiers : ∀ key ∈ s.keys, IsIdentifier key.toList
  distinct : s.keys.Nodup
  several : 2 ≤ s.keys.length
  message : "msg" ∈ s.keys
  fits : ∀ r ∈ s.records, s.Fits r
  oneTimestamp : s.records.countP (fun r => s.field r "level" = timestampName) ≤ 1

instance (s : Section) (r : Record) : Decidable (s.Fits r) :=
  decidable_of_iff (_ ∧ _ ∧ _ ∧ (s.field r "line").toList.all Char.isDigit = true)
    ⟨fun ⟨h₁, h₂, h₃, h₄⟩ => ⟨h₁, h₂, h₃, List.all_eq_true.mp h₄⟩,
      fun ⟨h₁, h₂, h₃, h₄⟩ => ⟨h₁, h₂, h₃, List.all_eq_true.mpr h₄⟩⟩

instance (s : Section) : Decidable s.WellFormed :=
  decidable_of_iff
    (s.header.toList.all (fun c => c ≠ '\x00' ∧ c.toNat < 0x80) = true ∧ _ ∧ _ ∧ _ ∧ _ ∧ _ ∧ _ ∧ _)
    ⟨fun ⟨h₁, h₂, h₃, h₄, h₅, h₆, h₇, h₈⟩ =>
        ⟨fun c hc => of_decide_eq_true (List.all_eq_true.mp h₁ c hc), h₂, h₃, h₄, h₅, h₆, h₇, h₈⟩,
      fun ⟨h₁, h₂, h₃, h₄, h₅, h₆, h₇, h₈⟩ =>
        ⟨List.all_eq_true.mpr fun c hc => decide_eq_true (h₁ c hc), h₂, h₃, h₄, h₅, h₆, h₇, h₈⟩⟩

end Section

variable {s : Section}

namespace Section

/-! ## The header is read -/

/-- The names of the keys, as characters. -/
def names (s : Section) : List (List Char) := s.keys.map String.toList

theorem mem_names_iff {name : String} : name.toList ∈ s.names ↔ name ∈ s.keys := by
  rw [names, List.mem_map]
  constructor
  · rintro ⟨key, hkey, heq⟩
    exact String.toList_inj.mp heq ▸ hkey
  · exact fun h => ⟨name, h, rfl⟩

/-- The keys in angle brackets. -/
def keyTexts (s : Section) : List (List Char) := s.names.map fun name => '<' :: name ++ ['>']

theorem isIdentifier_of_mem_names (hs : s.WellFormed) : ∀ name ∈ s.names, IsIdentifier name := by
  intro name hname
  obtain ⟨key, hkey, rfl⟩ := List.mem_map.mp hname
  exact hs.identifiers key hkey

theorem not_mem_keyText (hs : s.WellFormed) {c : Char} (hc : isWord c = false) (hopen : c ≠ '<')
    (hclose : c ≠ '>') : ∀ text ∈ s.keyTexts, c ∉ text := by
  intro text htext hmem
  obtain ⟨name, hname, rfl⟩ := List.mem_map.mp htext
  simp only [List.cons_append, List.mem_cons, List.mem_append, List.not_mem_nil, or_false, hopen,
    hclose, false_or] at hmem
  have hword := (isIdentifier_of_mem_names hs name hname).2.1 c hmem
  rw [hc] at hword
  cases hword

/-- The keys of a well-formed section name its fields. -/
theorem usableKeys_keyTexts (hs : s.WellFormed) (header : String) :
    usableKeys header (some s.keyTexts) = .ok (s.names.map plainKey) := by
  have hmessage : s.keyTexts.contains messageKey = true := by
    rw [List.contains_iff_mem, keyTexts, List.mem_map]
    exact ⟨messageName, mem_names_iff.mpr hs.message, rfl⟩
  have hdistinct : s.names.Nodup := hs.distinct.map fun _ _ => String.toList_inj.mp
  have hidentifiers := isIdentifier_of_mem_names hs
  unfold usableKeys
  dsimp only
  rw [hmessage, keyTexts, readKeys_of_isIdentifier hidentifiers]
  dsimp only
  rw [unusable?_of_isIdentifier hidentifiers hdistinct fun _ _ => List.not_mem_nil]
  rfl

/-- The fields of the header, as characters. -/
theorem map_toList_headerFields (s : Section) :
    s.headerFields.map String.toList =
      ["DEFMT".toList ++ '=' :: s.version.toList,
        "KEYS".toList ++ '=' :: [':'].intercalate s.keyTexts] ++
        (s.crate.map fun crate => "CRATE".toList ++ '=' :: crate.toList).toList := by
  have hkeys : (":".intercalate (s.keys.map fun key => "<" ++ key ++ ">")).toList =
      [':'].intercalate s.keyTexts := by
    rw [String.toList_intercalate, List.map_map, keyTexts, names, List.map_map]
    refine congrArg _ (List.map_congr_left fun key _ => ?_)
    simp
  rw [headerFields, List.map_append, List.map_cons, List.map_cons, String.toList_append,
    String.toList_append, hkeys]
  cases s.crate <;> simp

/-- The header is split into its fields. -/
theorem splitAt_header (hs : s.WellFormed) (hversion : ',' ∉ s.version.toList) :
    splitAt ',' s.header.toList = s.headerFields.map String.toList := by
  rw [header, String.toList_intercalate]
  refine splitAt_intercalate ?_ (by simp [headerFields])
  rw [map_toList_headerFields]
  intro field hfield
  rcases List.mem_append.mp hfield with hfield | hfield
  · rcases List.mem_cons.mp hfield with rfl | hfield
    · rw [List.mem_append, List.mem_cons, not_or, not_or]
      exact ⟨by decide, by decide, hversion⟩
    · rw [List.mem_singleton.mp hfield, List.mem_append, List.mem_cons, not_or, not_or]
      refine ⟨by decide, by decide, not_mem_intercalate (by decide) ?_⟩
      exact not_mem_keyText hs (by decide) (by decide) (by decide)
  · obtain ⟨crate, hcrate, rfl⟩ := Option.map_eq_some_iff.mp (Option.mem_toList.mp hfield)
    rw [List.mem_append, List.mem_cons, not_or, not_or]
    exact ⟨by decide, by decide, hs.crate crate hcrate⟩

/-- The header states the version, the keys and the crate, and nothing unknown. -/
theorem readFields_header (hs : s.WellFormed) (hversion : ',' ∉ s.version.toList) :
    readFields ⟨none, none, ""⟩ (splitAt ',' s.header.toList) =
      (⟨some s.version, some s.keyTexts, s.crate.getD ""⟩, none) := by
  have hkeys : splitAt ':' ([':'].intercalate s.keyTexts) = s.keyTexts := by
    refine splitAt_intercalate (not_mem_keyText hs (by decide) (by decide) (by decide)) ?_
    have hlength := hs.several
    intro hnil
    rw [keyTexts, names, List.map_map, List.map_eq_nil_iff] at hnil
    rw [hnil] at hlength
    cases hlength
  rw [splitAt_header hs hversion, map_toList_headerFields, List.cons_append, readFields,
    splitField_append (by decide)]
  dsimp only
  rw [if_pos rfl, List.cons_append, readFields, splitField_append (by decide)]
  dsimp only
  rw [if_neg (by decide), if_pos rfl, hkeys, String.ofList_toList]
  cases s.crate with
  | none => rfl
  | some crate =>
    rw [Option.map_some, Option.toList_some, List.nil_append, readFields,
      splitField_append (by decide)]
    dsimp only
    rw [if_neg (by decide), if_neg (by decide), if_pos rfl, String.ofList_toList]
    rfl

end Section

/-! ## The records are found -/

section
variable {offset padding : Nat} {run bytes rest : List UInt8} {text : String}

/-- Bytes other than NUL extend a run. -/
theorem runs_append (hbytes : 0 ∉ bytes) :
    runs offset run (bytes ++ rest) = runs (offset + bytes.length) (bytes.reverse ++ run) rest := by
  induction bytes generalizing offset run with
  | nil => rfl
  | cons b bytes ih =>
    rw [List.mem_cons, not_or] at hbytes
    rw [List.cons_append, runs, if_neg (Ne.symm hbytes.1), ih hbytes.2, List.reverse_cons,
      List.append_assoc, List.length_cons, Nat.add_assoc, Nat.add_comm 1]
    rfl

/-- NULs between runs only move on. -/
theorem runs_replicate (offset count : Nat) (rest : List UInt8) :
    runs offset [] (List.replicate count 0 ++ rest) = runs (offset + count) [] rest := by
  induction count generalizing offset with
  | zero => rfl
  | succ count ih =>
    rw [List.replicate_succ, List.cons_append, runs, if_pos rfl, if_pos List.isEmpty_nil, ih]
    congr 1
    omega

/-- A terminated text is a run of its own. -/
theorem runs_terminated (hne : text ≠ "") (hnul : '\x00' ∉ text.toList) :
    runs offset [] (terminated text padding ++ rest) =
      (offset, Text.Utf8.encode text) :: runs (offset + (terminated text padding).length) [] rest := by
  have hbytes := Text.Utf8.zero_not_mem_encode hnul
  have hnonempty : (Text.Utf8.encode text).reverse.isEmpty = false := by
    simpa using Text.Utf8.encode_ne_nil hne
  rw [terminated, List.append_assoc, runs_append hbytes, List.replicate_succ, List.cons_append, runs,
    if_pos rfl, List.append_nil, hnonempty, if_neg (by decide), runs_replicate]
  simp only [List.length_reverse, List.reverse_reverse, Nat.add_sub_cancel, List.length_append,
    List.length_cons, List.length_replicate]
  congr 2
  omega

end

namespace Section

/-- Two fields have a colon between them. -/
theorem text_ne_empty (hs : s.WellFormed) (r : Record) : s.text r ≠ "" := by
  have hseveral := hs.several
  intro hempty
  rw [text] at hempty
  match hkeys : s.keys with
  | [] | [_] =>
    rw [hkeys] at hseveral
    simp at hseveral
  | first :: second :: rest =>
    rw [hkeys, List.map_cons, List.map_cons, String.intercalate_cons_cons] at hempty
    simpa using congrArg String.toList hempty

theorem nul_not_mem_text (hs : s.WellFormed) {r : Record} (hr : r ∈ s.records) :
    '\x00' ∉ (s.text r).toList := by
  rw [text, String.toList_intercalate]
  refine not_mem_intercalate (by decide) fun p hp => ?_
  rw [List.map_map] at hp
  obtain ⟨key, hkey, rfl⟩ := List.mem_map.mp hp
  exact (hs.fits r hr).noNul key hkey

theorem header_ne_empty (s : Section) : s.header ≠ "" := by
  intro hempty
  rw [header, headerFields, List.cons_append, String.intercalate_cons_append] at hempty
  simpa using congrArg String.toList hempty

/-- Records one after the other are found at their offsets. -/
theorem runs_records (hs : s.WellFormed) {offset : Nat} {rs : List Record}
    (hrs : ∀ r ∈ rs, r ∈ s.records) :
    runs offset [] (rs.flatMap fun r => terminated (s.text r) r.padding) =
      (s.placedFrom offset rs).map fun p => (p.1, Text.Utf8.encode (s.text p.2)) := by
  induction rs generalizing offset with
  | nil => rfl
  | cons r rs ih =>
    rw [List.flatMap_cons, runs_terminated (text_ne_empty hs r)
      (nul_not_mem_text hs (hrs r List.mem_cons_self)), ih fun x hx => hrs x (List.mem_cons_of_mem _ hx)]
    rfl

theorem le_of_mem_placedFrom {offset : Nat} {rs : List Record} {p : Nat × Record}
    (hp : p ∈ s.placedFrom offset rs) : offset ≤ p.1 := by
  induction rs generalizing offset with
  | nil => cases hp
  | cons r rs ih =>
    rcases List.mem_cons.mp hp with rfl | hp
    · exact Nat.le_refl _
    · exact (Nat.le_add_right _ _).trans (ih hp)

/-- The records of the section are those that were put there. -/
theorem records_bytes (hs : s.WellFormed) :
    RecordLayout.records s.bytes = s.placed.map fun p => (p.1, Text.Utf8.encode (s.text p.2)) := by
  have hnul : '\x00' ∉ s.header.toList := fun h => (hs.ascii _ h).1 rfl
  have hlength : 0 < (terminated s.header s.padding).length := by simp [terminated]
  rw [RecordLayout.records, bytes, runs_terminated (header_ne_empty s) hnul, Nat.zero_add,
    runs_records hs fun r hr => hr, List.filter_cons, if_neg (by simp)]
  refine List.filter_eq_self.mpr fun p hp => ?_
  obtain ⟨q, hq, rfl⟩ := List.mem_map.mp hp
  exact decide_eq_true (Nat.ne_of_gt (hlength.trans_le (le_of_mem_placedFrom hq)))

/-- The header of the section is its first text. -/
theorem headerText_bytes (hs : s.WellFormed) : headerText s.bytes = s.header := by
  have hzero : 0 ∉ Text.Utf8.encode s.header :=
    Text.Utf8.zero_not_mem_encode fun h => (hs.ascii _ h).1 rfl
  have htake : headerBytes s.bytes = Text.Utf8.encode s.header := by
    have hhas : s.bytes.contains 0 = true := by simp [bytes, terminated]
    rw [headerBytes, if_pos hhas, bytes, terminated, List.append_assoc,
      List.takeWhile_append_of_pos, List.replicate_succ, List.cons_append, List.takeWhile_cons,
      if_neg (by decide), List.append_nil]
    intro b hb
    exact decide_eq_true fun heq => hzero (heq ▸ hb)
  rw [headerText, htake, Text.Utf8.decodeAscii_encode fun c hc => (hs.ascii c hc).2]

end Section

/-! ## The records are read -/

/-- Whether the message of a record holds no line feed. -/
def Record.IsSingleLine (r : Record) : Prop := '\n' ∉ (r.value "msg").toList

instance (r : Record) : Decidable r.IsSingleLine :=
  inferInstanceAs (Decidable (¬ _))

/-- The texts of a record by name, as characters. -/
def Record.valueOf (r : Record) (name : List Char) : List Char := (r.value (String.ofList name)).toList

namespace Section

theorem toList_text (s : Section) (r : Record) :
    (s.text r).toList = [':'].intercalate (s.names.map r.valueOf) := by
  rw [text, String.toList_intercalate, List.map_map, names, List.map_map]
  refine congrArg _ (List.map_congr_left fun key _ => ?_)
  simp [Record.valueOf]

/-- The fields that a record has. -/
def fieldsOf (s : Section) (r : Record) : Fields := s.names.map fun name => (name, r.valueOf name)

theorem field_fieldsOf (s : Section) (r : Record) (name : String) :
    RecordLayout.field name (s.fieldsOf r) = s.field r name := by
  rw [fieldsOf, field_map, field, Record.valueOf, String.ofList_toList, String.ofList_toList]
  simp only [mem_names_iff]

/-- A record is read field by field, unless its message holds a line feed. -/
theorem fields?_text (hs : s.WellFormed) {r : Record} (hr : r ∈ s.records) :
    fields? (s.names.map plainKey) (s.text r).toList =
      if '\n' ∈ (r.value "msg").toList then none else some (s.fieldsOf r) := by
  rw [toList_text, fields?_intercalate (mem_names_iff.mpr hs.message)]
  · rfl
  · intro name hname hmessage
    obtain ⟨key, hkey, rfl⟩ := List.mem_map.mp hname
    rw [Record.valueOf, String.ofList_toList]
    exact (hs.fits r hr).noColon key hkey fun heq => hmessage (heq ▸ rfl)
  · exact hs.distinct.map fun _ _ => String.toList_inj.mp

/-- Fields that fit state the entry of the record. -/
theorem entryOfFields_fieldsOf {r : Record} (hr : s.Fits r) (hmessage : "msg" ∈ s.keys) (offset : Nat) :
    entryOfFields (s.crate.getD "") offset (s.fieldsOf r) = .ok (s.entry offset r) := by
  have hlocation : RecordLayout.location (s.fieldsOf r) = .ok (s.location r) := by
    unfold RecordLayout.location location
    rw [field_fieldsOf, field_fieldsOf, field_fieldsOf, lineNumber_of_digits hr.line]
    dsimp only
    by_cases hfile : s.field r "file" = ""
    · rw [hfile]
      rfl
    · rw [if_neg hfile, if_neg (by simpa using hfile)]
  have hmsg : s.field r "msg" = r.value "msg" := if_pos hmessage
  unfold entryOfFields
  rw [hlocation, field_fieldsOf, field_fieldsOf, field_fieldsOf,
    levelAndTag_of_isLevelName hr.level, hmsg]
  dsimp only
  congr 2
  simp

/-- What the record at an offset is read as. -/
def readAt (s : Section) (p : Nat × Record) : Except RecoveryFault Entry :=
  RecordLayout.entry (s.names.map plainKey) (s.crate.getD "") (p.1, Text.Utf8.encode (s.text p.2))

theorem readAt_of_isSingleLine (hs : s.WellFormed) {p : Nat × Record} (hp : p.2 ∈ s.records)
    (hline : p.2.IsSingleLine) : s.readAt p = .ok (s.entry p.1 p.2) := by
  unfold readAt RecordLayout.entry
  rw [Text.Utf8.decode_encode]
  dsimp only
  rw [fields?_text hs hp, if_neg hline]
  exact entryOfFields_fieldsOf (hs.fits p.2 hp) hs.message p.1

theorem readAt_of_not_isSingleLine (hs : s.WellFormed) {p : Nat × Record} (hp : p.2 ∈ s.records)
    (hline : ¬ p.2.IsSingleLine) : s.readAt p = .error (.malformedRecord p.1 (s.text p.2)) := by
  unfold readAt RecordLayout.entry
  rw [Text.Utf8.decode_encode]
  dsimp only
  rw [fields?_text hs hp, if_pos (not_not.mp hline)]

theorem map_snd_placed (s : Section) : s.placed.map Prod.snd = s.records := by
  have h (offset : Nat) (rs : List Record) : (s.placedFrom offset rs).map Prod.snd = rs := by
    induction rs generalizing offset with
    | nil => rfl
    | cons r rs ih => rw [placedFrom, List.map_cons, ih]
  exact h _ _

theorem mem_records_of_mem_placed {p : Nat × Record} (hp : p ∈ s.placed) : p.2 ∈ s.records := by
  rw [← map_snd_placed s]
  exact List.mem_map_of_mem hp

/-- Every record is behind those before it. -/
theorem entries_increasing (s : Section) : s.entries.Pairwise fun a b => a.index < b.index := by
  have h (offset : Nat) (rs : List Record) :
      (s.placedFrom offset rs).Pairwise fun p q => p.1 < q.1 := by
    induction rs generalizing offset with
    | nil => exact .nil
    | cons r rs ih =>
      refine List.pairwise_cons.mpr ⟨fun p hp => ?_, ih _⟩
      have hle := le_of_mem_placedFrom hp
      have hpos : 0 < (terminated (s.text r) r.padding).length := by simp [terminated]
      omega
  exact List.pairwise_map.mpr (h _ _)

/-- At most one of the entries is a timestamp format. -/
theorem countP_isTimestamp_entries (hs : s.WellFormed) : s.entries.countP Entry.isTimestamp ≤ 1 := by
  have hcount : s.entries.countP Entry.isTimestamp =
      s.records.countP fun r => s.field r "level" = timestampName := by
    rw [entries, List.countP_map, ← map_snd_placed s, List.countP_map]
    refine List.countP_congr fun p _ => ?_
    simp [Entry.isTimestamp, entry, tagOf_eq_timestampTag_iff]
  exact hcount ▸ hs.oneTimestamp

/-- What is collected from the section: the version first, then entry by entry. -/
theorem collect_bytes (hs : s.WellFormed) (hversion : ',' ∉ s.version.toList) (r : Recovery) :
    collect s.bytes r = addEach s.readAt s.placed { r with version := some s.version } := by
  have hread := readFields_header hs hversion
  have hheader : RecordLayout.header s.bytes = ⟨some s.version, some s.keyTexts, s.crate.getD ""⟩ := by
    rw [RecordLayout.header, headerText_bytes hs, hread]
  have hkeys : recordKeys s.bytes = .ok (s.names.map plainKey) := by
    rw [recordKeys, hheader]
    exact usableKeys_keyTexts hs _
  rw [collect_eq, hkeys, hheader, headerText_bytes hs, hread, records_bytes hs]
  exact congrFun (addEach_map _ _ s.placed) _

/-- Records are collected as long as their messages hold no line feed. -/
theorem addEach_readAt (hs : s.WellFormed) {r : Recovery} (hr : r.timestamp = none)
    {before after : List (Nat × Record)} (hplaced : s.placed = before ++ after)
    (hlines : ∀ p ∈ before, p.2.IsSingleLine) :
    addEach s.readAt s.placed r =
      addEach s.readAt after (r.adding (before.map fun p => s.entry p.1 p.2)) := by
  have hmem (p : Nat × Record) (hp : p ∈ before) : p.2 ∈ s.records :=
    mem_records_of_mem_placed (hplaced ▸ List.mem_append_left after hp)
  have hstamps := countP_isTimestamp_entries hs
  rw [entries, hplaced, List.map_append, List.countP_append] at hstamps
  rw [hplaced]
  refine addEach_append (fun p hp => readAt_of_isSingleLine hs (hmem p hp) (hlines p hp)) ?_
  rw [hr, Option.toList_none, List.length_nil, Nat.zero_add]
  exact (Nat.le_add_right _ _).trans hstamps

end Section

end RecordLayout

/-! ## The table is built -/

namespace Image

open RecordLayout

variable {image : Image} {s : RecordLayout.Section} {supported : String} {maxDepth : Nat} {v : Version}
  {r : Recovery}

/-- A recovery of records is that of their section, of its version and of the table. -/
theorem recover_of_section {data : List UInt8} (hlayout : image.symbols.any isFormatSymbol = false)
    (hdata : image.sectionData? recordSection = some data) :
    image.recover supported maxDepth Recovery.empty =
      (do
        RecordLayout.collect data
        checkVersion supported
        finish maxDepth) { Recovery.empty with records := image.symbolRecords } := by
  unfold recover
  refine (bind_eq_of_ok rfl).trans ?_
  rw [hlayout, hdata]
  rfl

theorem checkVersion_eq_ok {marker : String} (hmarker : r.version = some marker)
    (hversion : Version.check marker supported = .ok v) : checkVersion supported r = .ok () r := by
  unfold checkVersion
  rw [hmarker]
  dsimp only
  rw [hversion]

/-- Entries in the order of their indices make a table. -/
theorem finish_eq_ok (hincreasing : r.entries.Pairwise fun a b => a.index < b.index)
    (hstamp : r.timestamp = timestampIndex? r.entries) :
    ∃ t r', finish maxDepth r = .ok t r' ∧ t.entries = r.entries ∧ t.version = r.version.getD "" ∧
      t.maxDepth = maxDepth ∧ t.timestamp = r.timestamp := by
  have hnodup : (r.entries.map Entry.index).Nodup :=
    (List.pairwise_map.mpr hincreasing).imp Nat.ne_of_lt
  have hmem (i : Nat) (hi : r.timestamp = some i) : ∃ e ∈ r.entries, e.index = i := by
    obtain ⟨e, he, hindex⟩ := Option.map_eq_some_iff.mp (hstamp.symm.trans hi)
    exact ⟨e, List.mem_of_find?_eq_some he, hindex⟩
  have hexists : ∃ t, Table.ofEntries r.entries (r.version.getD "") r.timestamp maxDepth = .ok t :=
    Table.exists_ofEntries hnodup hmem
  obtain ⟨t, ht⟩ := hexists
  obtain ⟨-, hparts⟩ := Table.parts_of_ofEntries ht
  refine ⟨t, { r with records := r.records ++ [tableRecord t] }, ?_,
    Table.entries_of_ofEntries ht hincreasing, hparts⟩
  unfold finish
  rw [ht]

/-- What is collected of a well-formed section of a supported version. -/
theorem collect_of_section (hs : s.WellFormed) (hversion : Version.check s.version supported = .ok v)
    {before after : List (Nat × Record)} (hplaced : s.placed = before ++ after)
    (hlines : ∀ p ∈ before, p.2.IsSingleLine) (records : List Log.Record) :
    RecordLayout.collect s.bytes { Recovery.empty with records } =
      addEach s.readAt after
        (Recovery.adding { Recovery.empty with version := some s.version, records }
          (before.map fun p => s.entry p.1 p.2)) := by
  rw [s.collect_bytes hs (Version.not_mem_of_check hversion (by decide)),
    s.addEach_readAt hs rfl hplaced hlines]

/-- Messages without line feeds are all recovered. -/
theorem build_of_singleLines (hs : s.WellFormed) (hlayout : image.symbols.any isFormatSymbol = false)
    (hdata : image.sectionData? recordSection = some s.bytes)
    (hversion : Version.check s.version supported = .ok v) (hlines : ∀ r ∈ s.records, r.IsSingleLine) :
    ∃ t, (image.build supported maxDepth).1 = .ok t ∧ t.entries = s.entries ∧
      t.version = s.version ∧ t.maxDepth = maxDepth ∧ t.timestamp = timestampIndex? s.entries := by
  let found : Recovery := Recovery.adding
    { Recovery.empty with version := some s.version, records := image.symbolRecords } s.entries
  have hcollect : RecordLayout.collect s.bytes { Recovery.empty with records := image.symbolRecords } =
      .ok () found :=
    collect_of_section hs hversion (List.append_nil _).symm
      (fun p hp => hlines _ (s.mem_records_of_mem_placed hp)) _
  obtain ⟨t, r, hfinish, ht⟩ := finish_eq_ok (r := found) s.entries_increasing rfl
  refine ⟨t, ?_, ht⟩
  have hrecover : image.recover supported maxDepth Recovery.empty = .ok t r := by
    rw [recover_of_section hlayout hdata]
    refine (bind_eq_of_ok hcollect).trans ?_
    exact (bind_eq_of_ok (checkVersion_eq_ok rfl hversion)).trans hfinish
  rw [build, hrecover]

/-- The first message with a line feed is refused. -/
theorem build_of_lineFeed (hs : s.WellFormed) (hlayout : image.symbols.any isFormatSymbol = false)
    (hdata : image.sectionData? recordSection = some s.bytes)
    (hversion : Version.check s.version supported = .ok v) {before after : List (Nat × Record)}
    {offset : Nat} {r : Record} (hplaced : s.placed = before ++ (offset, r) :: after)
    (hlines : ∀ p ∈ before, p.2.IsSingleLine) (hfeed : ¬ r.IsSingleLine) :
    (image.build supported maxDepth).1 = .error (.malformedRecord offset (s.text r)) := by
  have hmem : r ∈ s.records :=
    s.mem_records_of_mem_placed (hplaced ▸ List.mem_append_right before List.mem_cons_self)
  have hcollect := collect_of_section hs hversion hplaced hlines image.symbolRecords
  rw [addEach, s.readAt_of_not_isSingleLine hs hmem hfeed] at hcollect
  have hrecover : ∃ r', image.recover supported maxDepth Recovery.empty =
      .error (.malformedRecord offset (s.text r)) r' := by
    rw [recover_of_section hlayout hdata]
    exact ⟨_, bind_eq_of_error hcollect⟩
  obtain ⟨r', hr'⟩ := hrecover
  rw [build, hr']

/-- **Sections of records are recovered.** A well-formed section of a supported version is built into a
table of exactly the entries that its records state, each at the offset of its record, if no message holds
a line feed. Otherwise the first record with such a message is refused as malformed. -/
theorem build_section (hs : s.WellFormed) (hlayout : image.symbols.any isFormatSymbol = false)
    (hdata : image.sectionData? recordSection = some s.bytes)
    (hversion : Version.check s.version supported = .ok v) (maxDepth : Nat) :
    ((∀ r ∈ s.records, r.IsSingleLine) →
      ∃ t, (image.build supported maxDepth).1 = .ok t ∧ t.entries = s.entries ∧
        t.version = s.version ∧ t.maxDepth = maxDepth ∧ t.timestamp = timestampIndex? s.entries) ∧
    ∀ before offset r after, s.placed = before ++ (offset, r) :: after →
      (∀ p ∈ before, p.2.IsSingleLine) → ¬ r.IsSingleLine →
        (image.build supported maxDepth).1 = .error (.malformedRecord offset (s.text r)) :=
  ⟨fun hlines => build_of_singleLines hs hlayout hdata hversion hlines,
    fun _ _ _ _ hplaced hlines hfeed => build_of_lineFeed hs hlayout hdata hversion hplaced hlines hfeed⟩

/-- An image of a section of records and nothing else. -/
def ofRecords (s : RecordLayout.Section) : Image :=
  { ofSymbols [] with sections := [(recordSection, s.bytes)] }

/-- A statement with colons in its message, a timestamp format, and a format without level or place. -/
def recordsSample : RecordLayout.Section where
  version := "0.2.1"
  keys := ["level", "file", "line", "msg", "crate"]
  crate := some "app"
  padding := 0
  records :=
    [.ofFields [("level", "info"), ("file", "src/main.rs"), ("line", "10"),
        ("msg", "café: \x7b=u8\x7d"), ("crate", "net")] 2,
      .ofFields [("level", "timestamp"), ("msg", "\x7b=u64:us\x7d")] 0,
      .ofFields [("msg", "::")] 1]

theorem build_section_sample :
    recordsSample.WellFormed ∧ (ofRecords recordsSample).symbols.any isFormatSymbol = false ∧
      (ofRecords recordsSample).sectionData? recordSection = some recordsSample.bytes ∧
      Version.check recordsSample.version Version.wireFormat =
        .ok ⟨0, [0, 2, 1], none, none, none, []⟩ ∧
      ∃ t, ((ofRecords recordsSample).build Version.wireFormat Table.defaultMaxDepth).1 = .ok t ∧
        t.entries = recordsSample.entries ∧ t.entries.map Entry.index = [63, 102, 125] ∧
        t.timestamp = some 102 := by
  have hs : recordsSample.WellFormed := by decide
  have hdata : (ofRecords recordsSample).sectionData? recordSection = some recordsSample.bytes := rfl
  have hversion : Version.check recordsSample.version Version.wireFormat =
      .ok ⟨0, [0, 2, 1], none, none, none, []⟩ := by cbv
  have hlines : ∀ r ∈ recordsSample.records, r.IsSingleLine := by decide
  obtain ⟨t, ht, hentries, -, -, hstamp⟩ :=
    (build_section hs rfl hdata hversion Table.defaultMaxDepth).1 hlines
  refine ⟨hs, rfl, hdata, hversion, t, ht, hentries, ?_, ?_⟩
  · rw [hentries]
    decide
  · rw [hstamp]
    decide

/-- A statement with a message of two lines. -/
def twoLinesSample : RecordLayout.Section where
  version := "0.2.1"
  keys := ["level", "msg"]
  crate := none
  padding := 0
  records := [.ofFields [("level", "info"), ("msg", "a\nb")] 0]

/-- A message of two lines is refused, although the section is well-formed and states an entry for it. -/
theorem build_twoLinesSample :
    twoLinesSample.WellFormed ∧ twoLinesSample.entries.map Entry.index = [31] ∧
      twoLinesSample.bytes =
        Text.Utf8.encode "DEFMT=0.2.1,KEYS=<level>:<msg>\x00info:a\nb\x00" ∧
      ((ofRecords twoLinesSample).build Version.wireFormat Table.defaultMaxDepth).1 =
        .error (.malformedRecord 31 "info:a\nb") := by
  have hs : twoLinesSample.WellFormed := by decide
  have hversion : Version.check twoLinesSample.version Version.wireFormat =
      .ok ⟨0, [0, 2, 1], none, none, none, []⟩ := by cbv
  have hoffset : (terminated twoLinesSample.header 0).length = 31 := by decide
  have hplaced : twoLinesSample.placed =
      [] ++ (31, .ofFields [("level", "info"), ("msg", "a\nb")] 0) :: [] := by
    rw [← hoffset]
    rfl
  have htext : twoLinesSample.text (.ofFields [("level", "info"), ("msg", "a\nb")] 0) = "info:a\nb" := by
    decide
  refine ⟨hs, by decide, by decide, ?_⟩
  rw [← htext]
  exact build_of_lineFeed hs rfl rfl hversion hplaced (by simp) (by decide)

end Image

end DeferredLog
