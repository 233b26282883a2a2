import DeferredLog.Proofs.Metadata.Completed

/-!
# Records are the runs of a section

In a section of any bytes, a record is a run of bytes other than NUL, as long as it can be, behind a NUL
and in front of one. Its offset is that of its first byte, so offsets increase:

    (offset, run) ∈ records data ↔ IsRun data offset run                            (mem_records_iff)

The keys of a header that is accepted have one message among them. So a text is split into one part for
each key in one way at most, wherever the message is (`parts?_eq_some_iff`), and the entry of a record is
what the fields of this split state. No two records can claim an index. `build_runs` puts this together.
-/

namespace DeferredLog

open Recovering

namespace RecordLayout

/-! ## Runs -/

/-- A run of bytes other than NUL, from a NUL to the next. -/
structure IsRun (data : List UInt8) (offset : Nat) (run : List UInt8) : Prop where
  nonempty : run ≠ []
  noNul : 0 ∉ run
  place : ∃ before after, data = before ++ 0 :: (run ++ 0 :: after) ∧ offset = before.length + 1

/-- The current run, of which some bytes were read, comes to its end as this run. -/
def Ends (current bs run : List UInt8) : Prop :=
  ∃ more after, bs = more ++ 0 :: after ∧ 0 ∉ more ∧ run = current.reverse ++ more

/-- A run that starts later, behind a NUL among the bytes, which are at an offset. -/
def Follows (offset : Nat) (bs : List UInt8) (start : Nat) (run : List UInt8) : Prop :=
  0 ∉ run ∧ ∃ before after, bs = before ++ 0 :: (run ++ 0 :: after) ∧ start = offset + before.length + 1

section
variable {offset start : Nat} {current run bs : List UInt8} {b : UInt8}

theorem ends_nul : Ends current (0 :: bs) run ↔ run = current.reverse := by
  constructor
  · rintro ⟨more, after, heq, hmore, rfl⟩
    cases more with
    | nil => rw [List.append_nil]
    | cons x more =>
      obtain ⟨rfl, -⟩ := List.cons.inj heq
      exact absurd List.mem_cons_self hmore
  · rintro rfl
    exact ⟨[], bs, rfl, List.not_mem_nil, (List.append_nil _).symm⟩

theorem ends_cons (hb : b ≠ 0) : Ends current (b :: bs) run ↔ Ends (b :: current) bs run := by
  constructor
  · rintro ⟨more, after, heq, hmore, rfl⟩
    cases more with
    | nil => exact absurd (List.cons.inj heq).1 hb
    | cons x more =>
      obtain ⟨rfl, rfl⟩ := List.cons.inj heq
      exact ⟨more, after, rfl, fun h => hmore (List.mem_cons_of_mem _ h), by simp⟩
  · rintro ⟨more, after, rfl, hmore, rfl⟩
    refine ⟨b :: more, after, rfl, ?_, by simp⟩
    exact List.mem_cons.not.mpr (not_or.mpr ⟨Ne.symm hb, hmore⟩)

/-- A run behind this NUL starts at once, or later. -/
theorem follows_nul :
    Follows offset (0 :: bs) start run ↔
      start = offset + 1 ∧ Ends [] bs run ∨ Follows (offset + 1) bs start run := by
  constructor
  · rintro ⟨hrun, before, after, heq, rfl⟩
    cases before with
    | nil =>
      obtain ⟨-, rfl⟩ := List.cons.inj heq
      exact .inl ⟨rfl, run, after, rfl, hrun, rfl⟩
    | cons x before =>
      obtain ⟨rfl, rfl⟩ := List.cons.inj heq
      exact .inr ⟨hrun, before, after, rfl, by rw [List.length_cons]; omega⟩
  · rintro (⟨rfl, more, after, rfl, hmore, rfl⟩ | ⟨hrun, before, after, rfl, rfl⟩)
    · exact ⟨by simpa using hmore, [], after, rfl, rfl⟩
    · exact ⟨hrun, 0 :: before, after, rfl, by rw [List.length_cons]; omega⟩

theorem follows_cons (hb : b ≠ 0) :
    Follows offset (b :: bs) start run ↔ Follows (offset + 1) bs start run := by
  constructor
  · rintro ⟨hrun, before, after, heq, rfl⟩
    cases before with
    | nil => exact absurd (List.cons.inj heq).1 hb
    | cons x before =>
      obtain ⟨rfl, rfl⟩ := List.cons.inj heq
      exact ⟨hrun, before, after, rfl, by rw [List.length_cons]; omega⟩
  · rintro ⟨hrun, before, after, rfl, rfl⟩
    exact ⟨hrun, b :: before, after, rfl, by rw [List.length_cons]; omega⟩

/-- A run that is found is the current one, which has come to its end, or one that follows. -/
theorem mem_runs_iff (hcurrent : current.length ≤ offset) :
    (start, run) ∈ runs offset current bs ↔ run ≠ [] ∧
      (start = offset - current.length ∧ Ends current bs run ∨ Follows offset bs start run) := by
  induction bs generalizing offset current with
  | nil => simp [runs, Ends, Follows]
  | cons b bs ih =>
    rw [runs]
    by_cases hb : b = 0
    · have hfollows : (start, run) ∈ runs (offset + 1) [] bs ↔
          run ≠ [] ∧ Follows offset (0 :: bs) start run := by
        rw [ih (Nat.zero_le _), follows_nul, List.length_nil, Nat.sub_zero]
      subst hb
      rw [if_pos rfl, ends_nul]
      cases current with
      | nil =>
        rw [if_pos List.isEmpty_nil, hfollows]
        exact and_congr_right fun hne => ⟨.inr, fun h => h.resolve_left fun hfirst => hne hfirst.2⟩
      | cons x current =>
        rw [if_neg (by simp), List.mem_cons, hfollows, Prod.mk.injEq]
        constructor
        · rintro (⟨hstart, rfl⟩ | ⟨hne, hrest⟩)
          · exact ⟨by simp, .inl ⟨hstart, rfl⟩⟩
          · exact ⟨hne, .inr hrest⟩
        · rintro ⟨hne, hfirst | hrest⟩
          · exact .inl hfirst
          · exact .inr ⟨hne, hrest⟩
    · have hlength : offset + 1 - (b :: current).length = offset - current.length := by
        rw [List.length_cons]
        omega
      rw [if_neg hb, ih (by rw [List.length_cons]; omega), hlength, ends_cons hb, follows_cons hb]

/-- The records of a section are its runs between NULs. -/
theorem mem_records_iff {data : List UInt8} :
    (start, run) ∈ records data ↔ IsRun data start run := by
  rw [records, List.mem_filter, mem_runs_iff (Nat.zero_le _)]
  constructor
  · rintro ⟨⟨hne, ⟨rfl, -⟩ | ⟨hrun, before, after, rfl, rfl⟩⟩, hstart⟩
    · exact absurd rfl (of_decide_eq_true hstart)
    · exact ⟨hne, hrun, before, after, rfl, by omega⟩
  · rintro ⟨hne, hrun, before, after, rfl, rfl⟩
    exact ⟨⟨hne, .inr ⟨hrun, before, after, rfl, by omega⟩⟩, decide_eq_true (Nat.succ_ne_zero _)⟩

/-- Runs are found in the order of their offsets. -/
theorem runs_increasing (hcurrent : current.length ≤ offset) :
    (runs offset current bs).Pairwise fun p q => p.1 < q.1 := by
  induction bs generalizing offset current with
  | nil => exact .nil
  | cons b bs ih =>
    rw [runs]
    split_ifs with hb hempty
    · exact ih (Nat.zero_le _)
    · refine List.pairwise_cons.mpr ⟨fun q hq => ?_, ih (Nat.zero_le _)⟩
      obtain ⟨-, ⟨hstart, -⟩ | ⟨-, _, _, -, hstart⟩⟩ := (mem_runs_iff (Nat.zero_le _)).mp hq
      · rw [hstart, List.length_nil]
        omega
      · rw [hstart]
        omega
    · exact ih (by rw [List.length_cons]; omega)

theorem records_increasing (data : List UInt8) :
    (records data).Pairwise fun p q => p.1 < q.1 :=
  (runs_increasing (Nat.zero_le _)).filter _

end

/-! ## Keys of a header -/

/-- A key as it is written in a header. -/
def Key.text (key : Key) : List Char :=
  '<' :: key.name ++ '>' :: if key.lineFeed then ['\n'] else []

section
variable {texts seen : List (List Char)} {text : List Char} {key : Key} {keys : List Key}

theorem append_dropFinalLineFeed (text : List Char) :
    text = Hint.dropFinalLineFeed text ++
      if text.length ≠ (Hint.dropFinalLineFeed text).length then ['\n'] else [] := by
  unfold Hint.dropFinalLineFeed
  split_ifs with hfeed hlength hlength
  · obtain ⟨plain, rfl⟩ := List.getLast?_eq_some_iff.mp hfeed
    rw [List.dropLast_concat]
  · obtain ⟨plain, rfl⟩ := List.getLast?_eq_some_iff.mp hfeed
    simp at hlength
  · exact absurd rfl hlength
  · rw [List.append_nil]

theorem text_of_key? (h : key? text = some key) : key.text = text := by
  have hplain := append_dropFinalLineFeed text
  unfold key? at h
  dsimp only at h
  split at h
  · next rest hrest =>
    split at h
    · next hword =>
      obtain rfl := Option.some.inj h
      obtain ⟨name, rfl⟩ := List.getLast?_eq_some_iff.mp hword.1
      rw [hrest] at hplain ⊢
      rw [hplain, Key.text, List.dropLast_concat]
      simp
    · cases h
  · cases h

theorem text_of_readKeys (h : readKeys texts = .ok keys) : keys.map Key.text = texts := by
  induction texts generalizing keys with
  | nil =>
    obtain rfl := Except.ok.inj h
    rfl
  | cons text texts ih =>
    rw [readKeys] at h
    split at h
    · cases h
    · next key hkey =>
      split at h
      · next rest hrest =>
        obtain rfl := Except.ok.inj h
        rw [List.map_cons, text_of_key? hkey, ih hrest]
      · cases h

/-- Keys that can all name fields have distinct names. -/
theorem nodup_of_unusable? (h : unusable? seen keys = none) :
    (keys.map Key.name).Nodup ∧ ∀ key ∈ keys, key.name ∉ seen := by
  induction keys generalizing seen with
  | nil => exact ⟨.nil, fun _ hkey => absurd hkey List.not_mem_nil⟩
  | cons key keys ih =>
    rw [unusable?] at h
    split at h
    · cases h
    · next hkey =>
      simp only [Bool.or_eq_true, not_or, List.contains_iff_mem] at hkey
      obtain ⟨hnodup, hseen⟩ := ih h
      rw [List.map_cons, List.nodup_cons, List.forall_mem_cons]
      refine ⟨⟨fun hmem => ?_, hnodup⟩, hkey.2, fun other hother hname => ?_⟩
      · obtain ⟨other, hother, hname⟩ := List.mem_map.mp hmem
        exact hseen other hother (hname ▸ List.mem_cons_self)
      · exact hseen other hother (List.mem_cons_of_mem _ hname)

theorem isMessage_of_text (h : key.text = messageKey) : key.isMessage = true := by
  obtain ⟨name, lineFeed⟩ := key
  cases lineFeed with
  | true =>
    have hlast := congrArg List.getLast? h
    rw [Key.text, if_pos rfl, List.getLast?_append_of_ne_nil _ (List.cons_ne_nil _ _)] at hlast
    exact absurd hlast (by decide)
  | false =>
    have htail : name ++ ['>'] = "msg".toList ++ ['>'] := (List.cons.inj h).2
    exact decide_eq_true (by rw [List.append_cancel_right htail])

/-- The keys of a header that is accepted are those that it states, of distinct names and with one
message among them. -/
theorem of_recordKeys {data : List UInt8} (h : recordKeys data = .ok keys) :
    (header data).keys = some (keys.map Key.text) ∧ (keys.map Key.name).Nodup ∧ OneMessage keys := by
  unfold recordKeys usableKeys at h
  split at h
  · cases h
  · next texts htexts =>
    split_ifs at h with hmessage
    split at h
    · cases h
    · next read hread =>
      split at h
      · cases h
      · next husable =>
        obtain rfl := Except.ok.inj h
        have hnodup := (nodup_of_unusable? husable).1
        obtain rfl := text_of_readKeys hread
        rw [Bool.not_eq_true', Bool.not_eq_false, List.contains_iff_mem] at hmessage
        obtain ⟨message, hmem, htext⟩ := List.mem_map.mp hmessage
        exact ⟨htexts, hnodup, oneMessage_of_nodup hmem (isMessage_of_text htext) hnodup⟩

end

/-! ## Records -/

/-- A record that makes an entry is a text with one split, whose fields state the entry. -/
theorem splits_of_entry {keys : List Key} {crate : String} {offset : Nat} {run : List UInt8} {e : Entry}
    (hkeys : OneMessage keys) (h : entry keys crate (offset, run) = .ok e) :
    ∃ text parts, Text.Utf8.decode run = .ok text ∧
      (∀ ps, Splits keys text.toList ps ↔ ps = parts) ∧
      IsKnownLevel (field "level" ((keys.map Key.name).zip parts)) ∧
      e = statedEntry crate offset ((keys.map Key.name).zip parts) := by
  obtain ⟨text, fs, htext, hfs, hlevel, he⟩ := of_entry_eq_ok h
  unfold fields? at hfs
  split at hfs
  · cases hfs
  · next parts hparts =>
    split_ifs at hfs
    obtain rfl := Option.some.inj hfs
    refine ⟨text, parts, htext, fun ps => ?_, hlevel, he⟩
    rw [← parts?_eq_some_iff hkeys, hparts, Option.some.injEq, eq_comm]

/-! ## No two records have the same index -/

/-- A fault other than that an index is claimed twice. -/
def IsOfOne (fault : RecoveryFault) : Prop := fault.kind ≠ .duplicateIndex

theorem isOfOne_of_noTable {fault : RecoveryFault} (h : fault.kind = .noTable) : IsOfOne fault := by
  rw [IsOfOne, h]
  decide

theorem entry_gives_isOfOne (keys : List Key) (crate : String) (record : Nat × List UInt8) :
    Gives IsOfOne (fun _ => True) (entry keys crate record) := by
  unfold entry
  split
  · exact .error (isOfOne_of_noTable rfl)
  · split
    · exact .error (isOfOne_of_noTable rfl)
    · next fs _ =>
      have hlevel := levelAndTag_gives record.1 (field "level" fs)
      unfold entryOfFields
      split
      · next hfault =>
        rw [hfault, gives_error_iff] at hlevel
        exact .error (isOfOne_of_noTable hlevel)
      · split
        · next hfault =>
          obtain ⟨-, rfl⟩ := location_eq_error hfault
          exact .error fun h => by cases h
        · exact .ok trivial

theorem recordKeys_gives_isOfOne (data : List UInt8) :
    Gives IsOfOne (fun _ => True) (recordKeys data) := by
  unfold recordKeys usableKeys
  split
  · exact .error (isOfOne_of_noTable rfl)
  · split_ifs
    · exact .error (isOfOne_of_noTable rfl)
    · split
      · next fault hread =>
        obtain ⟨key, rfl⟩ := malformed_of_readKeys hread
        exact .error (isOfOne_of_noTable rfl)
      · split
        · exact .error (fun h => by cases h)
        · exact .ok trivial

end RecordLayout

namespace Image

open RecordLayout

variable {image : Image} {data : List UInt8} {supported : String} {maxDepth : Nat} {t : Table}

theorem checkVersion_isOfOne {r r' : Recovery} {fault : RecoveryFault}
    (h : checkVersion supported r = .error fault r') : IsOfOne fault := by
  unfold checkVersion at h
  split at h
  · obtain ⟨rfl, -⟩ := EStateM.Result.error.inj h
    exact isOfOne_of_noTable rfl
  · split at h
    · cases h
    · next cause _ =>
      obtain ⟨rfl, -⟩ := EStateM.Result.error.inj h
      cases cause <;> exact fun h => by cases h

/-- The entries of records have the offsets of their runs, which increase. -/
theorem index_of_records {keys : List Key} {crate : String} {es : List Entry}
    (hes : (records data).map (entry keys crate) = es.map .ok) :
    es.map Entry.index = (records data).map Prod.fst := by
  refine map_made (fun record e he => ?_) hes
  obtain ⟨_, _, -, -, -, rfl⟩ := of_entry_eq_ok he
  rfl

theorem increasing_of_records {keys : List Key} {crate : String} {es : List Entry}
    (hes : (records data).map (entry keys crate) = es.map .ok) :
    (es.map Entry.index).Pairwise (· < ·) := by
  rw [index_of_records hes, List.pairwise_map]
  exact records_increasing data

/-- Every record has an index of its own. -/
theorem isOfOne_of_build (hlayout : image.symbols.any isFormatSymbol = false)
    (hdata : image.sectionData? recordSection = some data) {fault : RecoveryFault}
    (h : (image.build supported maxDepth).1 = .error fault) : IsOfOne fault := by
  obtain ⟨r', hrecover⟩ := of_build_eq_error h
  rw [recover_of_section hlayout hdata] at hrecover
  rcases bind_eq_error_iff.mp hrecover with hcollect | ⟨_, r, hcollect, hrest⟩
  · have hkeys : Gives IsOfOne (fun keys => ∀ record ∈ records data,
        Gives IsOfOne (fun _ => True) (entry keys (header data).crate record)) (recordKeys data) := by
      cases hkeys : recordKeys data with
      | ok keys => exact .ok fun record _ => entry_gives_isOfOne keys _ record
      | error fault => exact .error (gives_error_iff.mp (hkeys ▸ recordKeys_gives_isOfOne data))
    have hends := collect_ends (P := fun _ => True) (fun _ => isOfOne_of_noTable) hkeys
      (r := { Recovery.empty with records := image.symbolRecords })
      ⟨fun _ _ => trivial, fun _ hi => by cases hi⟩
    unfold EndsIn at hends
    rwa [hcollect] at hends
  · rcases bind_eq_error_iff.mp hrest with hcheck | ⟨_, r₁, hcheck, hfinish⟩
    · exact checkVersion_isOfOne hcheck
    · obtain ⟨rfl, -⟩ := checkVersion_eq_ok_iff.mp hcheck
      obtain ⟨version, keys, es, -, -, hes, hstamps, rfl⟩ := of_collect_eq_ok hcollect
      have hnodup : (es.map Entry.index).Nodup := (increasing_of_records hes).imp Nat.ne_of_lt
      have hstamp : ∀ i, timestampIndex? es = some i → ∃ e ∈ es, e.index = i := by
        intro i hi
        obtain ⟨e, he, hindex⟩ := Option.map_eq_some_iff.mp hi
        exact ⟨e, List.mem_of_find?_eq_some he, hindex⟩
      have hok : ∃ t, Table.ofEntries es version (timestampIndex? es) maxDepth = .ok t :=
        Table.exists_ofEntries hnodup hstamp
      obtain ⟨t, ht⟩ := hok
      unfold finish at hfinish
      simp [Recovery.adding, Recovery.empty, ht] at hfinish

/-- **What the record layout states.** Building never finds an index claimed twice. A table that is built
has its entries in the order in which the records stand, one for each run of the section; and the run is a
text that is split into one part for each key of the header in one way only, and the entry is what the
fields of this split state. -/
theorem build_runs (image : Image) (supported : String) (maxDepth : Nat) {data : List UInt8}
    (hlayout : image.symbols.any isFormatSymbol = false)
    (hdata : image.sectionData? recordSection = some data) :
    (∀ fault, (image.build supported maxDepth).1 = .error fault → fault.kind ≠ .duplicateIndex) ∧
    ∀ t, (image.build supported maxDepth).1 = .ok t →
      t.entries = (image.build supported maxDepth).2.entries ∧
      (t.entries.map Entry.index).Pairwise (· < ·) ∧
      (∀ offset, (∃ e, t.entry? offset = some e) ↔ ∃ run, IsRun data offset run) ∧
      ∃ keys, (header data).keys = some (keys.map Key.text) ∧ (keys.map Key.name).Nodup ∧
        OneMessage keys ∧
        ∀ offset run, IsRun data offset run → ∃ text parts, Text.Utf8.decode run = .ok text ∧
          (∀ ps, Splits keys text.toList ps ↔ ps = parts) ∧
          IsKnownLevel (field "level" ((keys.map Key.name).zip parts)) ∧
          t.entry? offset =
            some (statedEntry (header data).crate offset ((keys.map Key.name).zip parts)) := by
  refine ⟨fun fault h => isOfOne_of_build hlayout hdata h, fun t h => ?_⟩
  obtain ⟨data', version, v, keys, es, hdata', -, -, hkeys, hes, -, hcollected, ht⟩ :=
    of_build_records hlayout h
  obtain rfl := Option.some.inj (hdata.symm.trans hdata')
  obtain ⟨htexts, hnodup, hmessage⟩ := of_recordKeys hkeys
  have hincreasing := increasing_of_records hes
  have hentries : t.entries = es := Table.entries_of_ofEntries ht (List.pairwise_map.mp hincreasing)
  have hentry (offset : Nat) (run : List UInt8) (hrun : IsRun data offset run) :
      ∃ e ∈ es, entry keys (header data).crate (offset, run) = .ok e :=
    exists_mem_made hes (mem_records_iff.mpr hrun)
  have hfound (e : Entry) (he : e ∈ es) : t.entry? e.index = some e :=
    Table.mem_entries_iff.mp (hentries ▸ he)
  refine ⟨hentries.trans hcollected.symm, hentries ▸ hincreasing, fun offset => ⟨?_, ?_⟩,
    keys, htexts, hnodup, hmessage, fun offset run hrun => ?_⟩
  · rintro ⟨e, he⟩
    have hindex : e.index = offset := t.entryMap.index_eq offset e he
    have hmem : e ∈ es := hentries ▸ Table.mem_entries_iff.mpr (hindex ▸ he)
    obtain ⟨⟨start, run⟩, hrecord, hmake⟩ := (mem_made_iff hes).mp hmem
    obtain ⟨_, _, -, -, -, rfl⟩ := of_entry_eq_ok hmake
    exact ⟨run, hindex ▸ mem_records_iff.mp hrecord⟩
  · rintro ⟨run, hrun⟩
    obtain ⟨e, he, hmake⟩ := hentry offset run hrun
    obtain ⟨_, _, -, -, -, rfl⟩ := of_entry_eq_ok hmake
    exact ⟨_, hfound _ he⟩
  · obtain ⟨e, he, hmake⟩ := hentry offset run hrun
    obtain ⟨text, parts, htext, hsplits, hlevel, rfl⟩ := splits_of_entry hmessage hmake
    exact ⟨text, parts, htext, hsplits, hlevel, hfound _ he⟩

/-- A section with its messages between other fields, NULs to fill it up, and an end without a NUL. -/
def runsText : String :=
  "DEFMT=0.2.1,KEYS=<level>:<msg>:<file>:<line>\x00\x00info:at 1:2:a.rs:7\x00" ++
    "timestamp:\x7b=u32:us\x7d::\x00\x00warn:cut"

/-- The entries of this section are those of its two runs. -/
theorem build_runs_sample :
    (ofSection runsText).symbols.any isFormatSymbol = false ∧
      (ofSection runsText).sectionData? recordSection = some (Text.Utf8.encode runsText) ∧
      ∃ t, ((ofSection runsText).build Version.wireFormat Table.defaultMaxDepth).1 = .ok t ∧
        t.entries.map (fun e => (e.index, e.format.text?, e.location)) =
          [(46, some "at 1:2", some ⟨"", "a.rs", some (.number 7)⟩),
            (65, some "\x7b=u32:us\x7d", none)] ∧
        ∀ offset, (∃ e, t.entry? offset = some e) ↔
          ∃ run, IsRun (Text.Utf8.encode runsText) offset run := by
  have hlayout : (ofSection runsText).symbols.any isFormatSymbol = false := rfl
  have hdata : (ofSection runsText).sectionData? recordSection = some (Text.Utf8.encode runsText) := by
    decide +kernel
  have hview : (ofSection runsText).table?.map
      (fun t => t.entries.map fun e => (e.index, e.format.text?, e.location)) =
        some [(46, some "at 1:2", some ⟨"", "a.rs", some (.number 7)⟩),
          (65, some "\x7b=u32:us\x7d", none)] := by
    decide +kernel
  obtain ⟨t, ht, hentries⟩ := exists_of_table? hview
  obtain ⟨-, hbuilt⟩ :=
    build_runs (ofSection runsText) Version.wireFormat Table.defaultMaxDepth hlayout hdata
  obtain ⟨-, -, hruns, -⟩ := hbuilt t ht
  exact ⟨hlayout, hdata, t, ht, hentries, hruns⟩

end Image

end DeferredLog
