import DeferredLog.Proofs.Check.Formats
import DeferredLog.Proofs.Metadata.Completed
import DeferredLog.Proofs.Wire.Conformance

/-!
# Levels, tags and the timestamp format agree

The level and the tag of an entry are found on three ways: from the tag in a symbol's metadata, from the
address range that a symbol lies in, and from the level name of a record. In all of them an entry has a
level if its tag names it. The converse holds of symbols, and of records whose level name is written in
the letters of the level: a name in other letters stands for the level, too, and goes into the tag as it
is written.

    e.level = some level ↔ e.tag = tagStart ++ level.tagName ∨ image.Respells e.tag level

No such tag is that of the timestamp format. So this has no level: no frame is decoded under its index, and
a check never finds it to be a log statement (`build_levels_and_tags`).
-/

namespace DeferredLog

open Recovering

/-! ## Names of levels -/

namespace Level

theorem tagName_injective {level level' : Level} (h : level.tagName = level'.tagName) :
    level = level' := by
  have hname : ofTagName? level.tagName = some level := ofTagName?_eq_some_iff.mpr rfl
  exact Option.some.inj (hname.symm.trans (ofTagName?_eq_some_iff.mpr h))

/-- The name of a level stands for it. -/
theorem ofName?_tagName (level : Level) : ofName? level.tagName = some level := by
  cases level <;> decide

end Level

/-- A tag that states a level. -/
theorem tagStart_append_tagName_inj {level level' : Level} :
    tagStart ++ level.tagName = tagStart ++ level'.tagName ↔ level = level' := by
  rw [String.append_right_inj]
  exact ⟨Level.tagName_injective, congrArg Level.tagName⟩

/-- The tag that a name stands for, and the level of that name in any letters. -/
def TagNames (tag : String) (level : Level) : Prop :=
  ∃ name, tag = tagStart ++ name ∧ Level.ofName? name = some level

theorem not_tagNames_timestampTag (level : Level) : ¬ TagNames timestampTag level := by
  rintro ⟨name, htag, hname⟩
  have hstamp : timestampTag = tagStart ++ RecordLayout.timestampName := rfl
  rw [hstamp, String.append_right_inj] at htag
  subst htag
  cases level <;> exact absurd hname (by decide)

/-! ## Entries -/

namespace SymbolLayout

theorem levelOfTag?_eq_some_iff {tag : String} {level : Level} :
    levelOfTag? tag = some level ↔ tag = tagStart ++ level.tagName := by
  rw [levelOfTag?, Option.bind_eq_some_iff]
  constructor
  · rintro ⟨rest, hrest, hlevel⟩
    rw [List.isPrefixOf?_eq_some_iff_append_eq] at hrest
    rw [← String.toList_inj, ← hrest, String.toList_append, ← Level.ofTagName?_eq_some_iff.mp hlevel,
      String.toList_ofList]
  · rintro rfl
    refine ⟨level.tagName.toList, ?_, ?_⟩
    · rw [List.isPrefixOf?_eq_some_iff_append_eq, String.toList_append]
    · rw [String.ofList_toList, Level.ofTagName?_eq_some_iff]

theorem eq_some_iff_tagOf {found : Option Level} {level : Level} :
    found = some level ↔ tagOf found = tagStart ++ level.tagName := by
  cases found with
  | none => cases level <;> decide
  | some level' =>
    rw [tagOf, tagStart_append_tagName_inj]
    simp

/-- The entry of a symbol has a level just if its tag names it. -/
theorem level_of_entry {rs : List LevelRange} {s : ImageSymbol} {e : Entry} (h : entry rs s = .ok e)
    (level : Level) : e.level = some level ↔ e.tag = tagStart ++ level.tagName := by
  unfold entry at h
  split at h
  · obtain rfl := Except.ok.inj h
    exact levelOfTag?_eq_some_iff
  · cases h
  · obtain rfl := Except.ok.inj h
    exact eq_some_iff_tagOf

end SymbolLayout

namespace RecordLayout

/-- The tag for a level name names the level of that name. -/
theorem tagNames_tagOf_iff {name : String} {level : Level} :
    TagNames (tagOf name) level ↔ Level.ofName? name = some level := by
  rw [TagNames, tagOf]
  simp only [String.append_right_inj]
  by_cases hempty : name = ""
  · subst hempty
    refine iff_of_false ?_ ?_
    · rintro ⟨_, rfl, hname⟩
      cases level <;> exact absurd hname (by decide)
    · cases level <;> decide
  · rw [if_neg hempty]
    constructor
    · rintro ⟨_, rfl, hname⟩
      exact hname
    · exact fun hname => ⟨name, rfl, hname⟩

theorem level_of_entry {keys : List Key} {crate : String} {record : Nat × List UInt8} {e : Entry}
    (h : entry keys crate record = .ok e) (level : Level) :
    e.level = some level ↔ TagNames e.tag level := by
  obtain ⟨_, fs, -, -, -, rfl⟩ := of_entry_eq_ok h
  exact tagNames_tagOf_iff.symm

end RecordLayout

/-! ## Tables -/

/-- The tag of a record's entry names a level in other letters than the level's own. -/
def Image.Respells (image : Image) (tag : String) (level : Level) : Prop :=
  image.symbols.any Image.isFormatSymbol = false ∧ tag ≠ tagStart ++ level.tagName ∧ TagNames tag level

/-- The entry of a frame is a log statement of the table. -/
theorem Table.entry_of_decodeFresh {t : Table} {data : List UInt8} {frame : Frame} {n : Nat}
    (h : t.decodeFresh data = .ok (frame, n)) :
    frame.entry ∈ t.entries ∧ frame.entry.level = some frame.level := by
  have hstatement := (t.conforms_of_decodeFresh h).statement
  unfold Frame.statement at hstatement
  rw [Table.lookup_natCast] at hstatement
  cases he : t.entry? frame.entry.index with
  | none =>
    rw [he] at hstatement
    cases hstatement
  | some e =>
    rw [he] at hstatement
    dsimp only at hstatement
    split at hstatement
    · next hlevel =>
      obtain ⟨rfl, rfl⟩ := Prod.mk.inj (Except.ok.inj hstatement)
      exact ⟨mem_entries_iff.mpr he, hlevel⟩
    · cases hstatement

namespace Image

variable {image : Image} {supported : String} {maxDepth : Nat} {t : Table}

/-- The levels of a table are those that its tags name. -/
theorem level_of_build (h : (image.build supported maxDepth).1 = .ok t) {e : Entry}
    (he : e ∈ t.entries) (level : Level) :
    e.level = some level ↔ e.tag = tagStart ++ level.tagName ∨ image.Respells e.tag level := by
  cases hlayout : image.symbols.any isFormatSymbol with
  | true =>
    obtain ⟨_, _, rs, es, place?, -, -, -, hes, -, ht⟩ := of_build_symbols hlayout h
    obtain ⟨first, hfirst, rfl⟩ := List.mem_map.mp ((Table.mem_entries_of_ofEntries ht e).mp he)
    obtain ⟨s, -, hs⟩ := (mem_made_iff hes).mp hfirst
    rw [Respells, hlayout]
    simpa using SymbolLayout.level_of_entry hs level
  | false =>
    obtain ⟨_, _, _, keys, es, -, -, -, -, hes, -, -, ht⟩ := of_build_records hlayout h
    obtain ⟨record, -, hrecord⟩ :=
      (mem_made_iff hes).mp ((Table.mem_entries_of_ofEntries ht e).mp he)
    rw [Respells, hlayout, RecordLayout.level_of_entry hrecord level]
    by_cases htag : e.tag = tagStart ++ level.tagName
    · exact iff_of_true ⟨_, htag, level.ofName?_tagName⟩ (.inl htag)
    · simp [htag]

/-- A table has at most one timestamp format, and knows its index. -/
theorem timestamp_of_build (h : (image.build supported maxDepth).1 = .ok t) :
    t.entries.countP Entry.isTimestamp ≤ 1 ∧ t.timestamp = timestampIndex? t.entries := by
  have hmade : ∃ es version, es.countP Entry.isTimestamp ≤ 1 ∧
      Table.ofEntries es version (timestampIndex? es) maxDepth = .ok t := by
    cases hlayout : image.symbols.any isFormatSymbol with
    | true =>
      obtain ⟨version, _, _, es, place?, -, -, -, -, hstamps, ht⟩ := of_build_symbols hlayout h
      refine ⟨es.map fun e => { e with location := place? e }, version, ?_, ?_⟩
      · rw [List.countP_map]
        exact hstamps
      · have hsame : timestampIndex? (es.map fun e => { e with location := place? e }) =
            timestampIndex? es :=
          timestampIndex?_map (f := fun e => { e with location := place? e }) (fun _ => rfl)
            (fun _ => rfl) es
        rw [hsame]
        exact ht
    | false =>
      obtain ⟨_, version, _, _, es, -, -, -, -, -, hstamps, -, ht⟩ := of_build_records hlayout h
      exact ⟨es, version, hstamps, ht⟩
  obtain ⟨es, version, hstamps, ht⟩ := hmade
  have hperm := Table.perm_of_ofEntries ht
  have hcount : t.entries.countP Entry.isTimestamp ≤ 1 := hperm.countP_eq _ ▸ hstamps
  refine ⟨hcount, (Table.parts_of_ofEntries ht).2.2.2.trans ?_⟩
  ext i
  rw [timestampIndex?_eq_some_iff hstamps, timestampIndex?_eq_some_iff hcount]
  simp only [hperm.mem_iff]

/-- The timestamp format has no level. -/
theorem level_of_isTimestamp (h : (image.build supported maxDepth).1 = .ok t) {e : Entry}
    (he : e ∈ t.entries) (hstamp : e.tag = timestampTag) : e.level = none := by
  cases hlevel : e.level with
  | none => rfl
  | some level =>
    have hnamed : TagNames e.tag level := by
      rcases (level_of_build h he level).mp hlevel with htag | hother
      · exact ⟨_, htag, level.ofName?_tagName⟩
      · exact hother.2.2
    exact absurd (hstamp ▸ hnamed) (not_tagNames_timestampTag level)

/-- The index of the timestamp format is that of the one entry with its tag. -/
theorem timestamp_eq_some_iff_of_build (h : (image.build supported maxDepth).1 = .ok t) {i : Nat} :
    t.timestamp = some i ↔ ∃ e ∈ t.entries, e.tag = timestampTag ∧ e.index = i := by
  obtain ⟨hstamps, htimestamp⟩ := timestamp_of_build h
  rw [htimestamp, timestampIndex?_eq_some_iff hstamps]
  simp only [Entry.isTimestamp, decide_eq_true_eq]

theorem level_of_timestamp (h : (image.build supported maxDepth).1 = .ok t) {e : Entry}
    (he : e ∈ t.entries) (hstamp : t.timestamp = some e.index) : e.level = none := by
  obtain ⟨e', he', htag, hindex⟩ := (timestamp_eq_some_iff_of_build h).mp hstamp
  have heq : e' = e := Table.eq_of_index_eq he' he hindex
  exact level_of_isTimestamp h he (heq ▸ htag)

/-- No frame is decoded under the timestamp format. -/
theorem timestamp_ne_of_decodeFresh (h : (image.build supported maxDepth).1 = .ok t)
    {bytes : List UInt8} {frame : Frame} {n : Nat} (hdecode : t.decodeFresh bytes = .ok (frame, n)) :
    t.timestamp ≠ some frame.entry.index := by
  intro hstamp
  obtain ⟨he, hlevel⟩ := Table.entry_of_decodeFresh hdecode
  rw [level_of_timestamp h he hstamp] at hlevel
  cases hlevel

/-- No frame of a stream is one under the timestamp format. -/
theorem timestamp_ne_of_next (h : (image.build supported maxDepth).1 = .ok t) {now : FormatCache}
    (hnow : t.Remembers now) (d : StreamDecoder) : ∃ a, (d.next t).result now = .ok a ∧
      ∀ frame, a.result = .ok frame → t.timestamp ≠ some frame.entry.index := by
  obtain ⟨a, ha, hresult⟩ := d.exists_next_agrees t
  refine ⟨a, (ha now hnow).1, fun frame hok => ?_⟩
  rw [hresult] at hok
  cases hd : t.decodeFresh d.buffer with
  | error e =>
    rw [hd] at hok
    cases hok
  | ok p =>
    rw [hd] at hok
    obtain rfl := Except.ok.inj hok
    exact timestamp_ne_of_decodeFresh h hd

/-- The timestamp format is not found to be a log statement. -/
theorem not_mem_findings (h : (image.build supported maxDepth).1 = .ok t)
    {found : List (Entry × Finding)} (hfound : t.freshFindings t.entries = .ok found) (e : Entry) :
    (e, .timestampStatement) ∉ found := by
  intro hmem
  have hall := Table.freshFindings_eq_complaints (Table.isFormatFault_of_freshFindings hfound)
  rw [Except.ok.inj (hfound.symm.trans hall), Table.mem_complaints_iff,
    Table.complaint?_eq_timestampStatement_iff] at hmem
  obtain ⟨he, -, hstamp, hlevel⟩ := hmem
  rw [level_of_timestamp h he hstamp] at hlevel
  cases hlevel

/-- **Levels, tags and the timestamp format agree.** In a table that was built, an entry has a level just if
its tag names the level, in the letters of the level or, of a record, in any letters. At most one entry has
the tag of the timestamp format, its index is what the table has for that, and it has no level. So no
frame is decoded under it, in whatever state the table is by then, and it is no finding of a check. -/
theorem build_levels_and_tags (image : Image) (supported : String) (maxDepth : Nat) {t : Table}
    (h : (image.build supported maxDepth).1 = .ok t) :
    (∀ e ∈ t.entries, ∀ level, e.level = some level ↔
      e.tag = tagStart ++ level.tagName ∨ image.Respells e.tag level) ∧
    (∀ e ∈ t.entries, ∀ e' ∈ t.entries, e.tag = timestampTag → e'.tag = timestampTag → e = e') ∧
    (∀ i, t.timestamp = some i ↔ ∃ e ∈ t.entries, e.tag = timestampTag ∧ e.index = i) ∧
    (∀ e ∈ t.entries, e.tag = timestampTag → e.level = none) ∧
    ∀ now, t.Remembers now →
      (∀ data frame n, t.decode now data = .ok (frame, n) → t.timestamp ≠ some frame.entry.index) ∧
      (∀ d : StreamDecoder, ∃ a, (d.next t).result now = .ok a ∧
        ∀ frame, a.result = .ok frame → t.timestamp ≠ some frame.entry.index) ∧
      ∀ found, (t.findings t.entries).result now = .ok found → ∀ e, (e, .timestampStatement) ∉ found := by
  obtain ⟨hstamps, -⟩ := timestamp_of_build h
  refine ⟨fun e he level => level_of_build h he level, ?_, fun i => timestamp_eq_some_iff_of_build h,
    fun e he htag => level_of_isTimestamp h he htag,
    fun now hnow => ⟨?_, fun d => timestamp_ne_of_next h hnow d, ?_⟩⟩
  · intro e he e' he' htag htag'
    exact eq_of_isTimestamp hstamps he he' (decide_eq_true htag) (decide_eq_true htag')
  · intro data frame n hdecode
    rw [Table.decode_eq_decodeFresh hnow] at hdecode
    exact timestamp_ne_of_decodeFresh h hdecode
  · intro found hfound
    rw [(t.findings_agrees t.entries now hnow).1] at hfound
    exact not_mem_findings h hfound

/-- Of a log statement, a timestamp format and a format without metadata, the first only has a level. -/
theorem build_levels_and_tags_metadata :
    ∃ t, (metadataSample.build Version.wireFormat Table.defaultMaxDepth).1 = .ok t ∧
      t.entries.map (fun e => (e.tag, e.level)) =
        [("defmt_info", some .info), ("defmt_timestamp", none), ("", none)] ∧
      (∀ e ∈ t.entries, ∀ level, e.level = some level ↔
        e.tag = tagStart ++ level.tagName ∨ metadataSample.Respells e.tag level) ∧
      ∀ data frame n, t.decode {} data = .ok (frame, n) → t.timestamp ≠ some frame.entry.index := by
  have hview : metadataSample.table?.map (fun t => t.entries.map fun e => (e.tag, e.level)) =
      some [("defmt_info", some .info), ("defmt_timestamp", none), ("", none)] := by decide +kernel
  obtain ⟨t, ht, hentries⟩ := exists_of_table? hview
  obtain ⟨hlevels, -, -, -, hremembered⟩ :=
    build_levels_and_tags metadataSample Version.wireFormat Table.defaultMaxDepth ht
  exact ⟨t, ht, hentries, hlevels, (hremembered {} .nothing).1⟩

/-- A record whose level name is in upper case. -/
def respelledSample : Image := ofSection "DEFMT=0.2.1,KEYS=<level>:<msg>\x00INFO:hi\x00"

/-- Its entry has the level, and a tag that does not name it in the letters of the level. -/
theorem build_respelledSample :
    ∃ t, (respelledSample.build Version.wireFormat Table.defaultMaxDepth).1 = .ok t ∧
      ∃ e ∈ t.entries, ¬ ∀ level, e.level = some level ↔ e.tag = tagStart ++ level.tagName := by
  have hview : respelledSample.table?.map (fun t => t.entries.map fun e => (e.tag, e.level)) =
      some [("defmt_INFO", some .info)] := by decide +kernel
  obtain ⟨t, ht, hentries⟩ := exists_of_table? hview
  obtain ⟨e, he, heq⟩ := List.map_eq_singleton_iff.mp hentries
  obtain ⟨htag, hlevel⟩ := Prod.mk.inj heq
  refine ⟨t, ht, e, by rw [he]; exact List.mem_singleton_self e, fun hall => ?_⟩
  have hnamed := (hall .info).mp hlevel
  rw [htag] at hnamed
  exact absurd hnamed (by decide)

end Image

end DeferredLog
