import DeferredLog.Proofs.Metadata.Locations
import DeferredLog.Proofs.Metadata.RecordSection

/-!
# What a recovery with a table has gone through

A recovery that comes to a table has passed every step, and each step says what it has found and what it
has left unchanged. Entries are made one for each source, in their order, and at most one of them is a
timestamp format:

    addEach make as r = .ok () r' ↔
      ∃ es, as.map make = es.map .ok ∧ stampsWith r es ≤ 1 ∧ r' = r.adding es      (addEach_eq_ok_iff)

The entry of a record is the one that its fields state (`of_entry_eq_ok`). From there on, only locations are
attached. So the table is one of the entries of the candidates, or of the records, and the version has been
checked (`of_build_symbols`, `of_build_records`).
-/

namespace DeferredLog

/-! ## Timestamp formats -/

/-- Of entries with at most one timestamp format, two that are one are the same. -/
theorem eq_of_isTimestamp {es : List Entry} (hstamps : es.countP Entry.isTimestamp ≤ 1) {e e' : Entry}
    (he : e ∈ es) (he' : e' ∈ es) (hstamp : e.isTimestamp = true) (hstamp' : e'.isTimestamp = true) :
    e = e' := by
  rw [List.countP_eq_length_filter] at hstamps
  have hmem : e ∈ es.filter Entry.isTimestamp := List.mem_filter.mpr ⟨he, hstamp⟩
  have hmem' : e' ∈ es.filter Entry.isTimestamp := List.mem_filter.mpr ⟨he', hstamp'⟩
  match hfilter : es.filter Entry.isTimestamp with
  | [] =>
    rw [hfilter] at hmem
    cases hmem
  | [x] =>
    rw [hfilter, List.mem_singleton] at hmem hmem'
    exact hmem.trans hmem'.symm
  | _ :: _ :: _ =>
    rw [hfilter] at hstamps
    simp at hstamps

/-- The index of the timestamp format is that of the one entry that is one. -/
theorem timestampIndex?_eq_some_iff {es : List Entry} (hstamps : es.countP Entry.isTimestamp ≤ 1)
    {i : Nat} : timestampIndex? es = some i ↔ ∃ e ∈ es, e.isTimestamp = true ∧ e.index = i := by
  rw [timestampIndex?, Option.map_eq_some_iff]
  constructor
  · rintro ⟨e, he, rfl⟩
    exact ⟨e, List.mem_of_find?_eq_some he, List.find?_some he, rfl⟩
  · rintro ⟨e, he, hstamp, rfl⟩
    cases hfind : es.find? Entry.isTimestamp with
    | none => exact absurd hstamp (List.find?_eq_none.mp hfind e he)
    | some e' =>
      have heq := eq_of_isTimestamp hstamps (List.mem_of_find?_eq_some hfind) he
        (List.find?_some hfind) hstamp
      exact ⟨e', rfl, by rw [heq]⟩

/-- Where entries are has nothing to do with which of them is the timestamp format. -/
theorem timestampIndex?_map {f : Entry → Entry} (hindex : ∀ e, (f e).index = e.index)
    (htag : ∀ e, (f e).tag = e.tag) (es : List Entry) :
    timestampIndex? (es.map f) = timestampIndex? es := by
  have hsame : Entry.isTimestamp ∘ f = Entry.isTimestamp := by
    funext e
    rw [Function.comp_apply, Entry.isTimestamp, htag, Entry.isTimestamp]
  rw [timestampIndex?, List.find?_map, hsame, Option.map_map, timestampIndex?]
  exact congrArg (Option.map · _) (funext hindex)

namespace Recovering

variable {α β : Type} {x : Recovering α} {f : α → Recovering β} {r r' : Recovery}

/-! ## Steps that succeed -/

theorem bind_eq_ok_iff {b : β} :
    (x >>= f) r = .ok b r' ↔ ∃ a s, x r = .ok a s ∧ f a s = .ok b r' := by
  change EStateM.bind x f r = .ok b r' ↔ _
  rw [EStateM.bind]
  cases hx : x r with
  | ok a s => simp
  | error fault s => simp

theorem bind_eq_error_iff {fault : RecoveryFault} : (x >>= f) r = .error fault r' ↔
    x r = .error fault r' ∨ ∃ a s, x r = .ok a s ∧ f a s = .error fault r' := by
  change EStateM.bind x f r = .error fault r' ↔ _
  rw [EStateM.bind]
  cases hx : x r with
  | ok a s => simp
  | error fault s => simp

/-- How many timestamp formats there are, if entries are added. -/
def stampsWith (r : Recovery) (es : List Entry) : Nat :=
  r.timestamp.toList.length + es.countP Entry.isTimestamp

theorem stampsWith_nil_le (r : Recovery) : stampsWith r [] ≤ 1 := by
  rw [stampsWith, List.countP_nil]
  cases r.timestamp <;> simp

/-- An entry is added unless it is a second timestamp format. -/
theorem addEntry_eq_ok_iff {e : Entry} :
    addEntry e r = .ok () r' ↔ stampsWith r [e] ≤ 1 ∧ r' = r.adding [e] := by
  by_cases he : e.isTimestamp = true
  · cases hstamp : r.timestamp with
    | none =>
      rw [addEntry_eq_ok fun _ => hstamp]
      simp [stampsWith, hstamp, he, eq_comm]
    | some i =>
      have htag : e.tag = timestampTag := of_decide_eq_true he
      rw [addEntry, if_pos htag, hstamp]
      simp [stampsWith, hstamp, he]
  · rw [addEntry_eq_ok fun h => absurd h he]
    have hle : stampsWith r [e] ≤ 1 := by simp [stampsWith, he]
    simp [hle, eq_comm]

theorem addEntry_eq_error {e : Entry} (h : 1 < stampsWith r [e]) :
    addEntry e r = .error .secondTimestamp r := by
  have hle := stampsWith_nil_le r
  have htag : e.tag = timestampTag := by
    by_contra hne
    have hplain : e.isTimestamp = false := decide_eq_false hne
    rw [stampsWith, List.countP_singleton, hplain] at h
    exact absurd h (Nat.not_lt.mpr hle)
  have hstamp : r.timestamp.isSome = true := by
    by_contra hnone
    rw [Option.not_isSome_iff_eq_none] at hnone
    rw [stampsWith, hnone, Option.toList_none, List.length_nil, Nat.zero_add] at h
    exact absurd h (Nat.not_lt.mpr List.countP_le_length)
  rw [addEntry, if_pos htag, if_pos hstamp]

/-- As long as there is one timestamp format at most, those added count like those still to come. -/
theorem stampsWith_adding {e : Entry} (h : stampsWith r [e] ≤ 1) (es : List Entry) :
    stampsWith (r.adding [e]) es = stampsWith r (e :: es) := by
  unfold stampsWith at h ⊢
  rw [List.countP_cons]
  by_cases he : e.isTimestamp = true
  · rw [List.countP_singleton, if_pos he] at h
    have hnone : r.timestamp = none := by
      cases hstamp : r.timestamp with
      | none => rfl
      | some i =>
        rw [hstamp] at h
        simp at h
    simp [Recovery.adding, timestampIndex?, he, hnone, Nat.add_comm]
  · simp [Recovery.adding, timestampIndex?, he]

theorem stampsWith_singleton_le (r : Recovery) (e : Entry) (es : List Entry) :
    stampsWith r [e] ≤ stampsWith r (e :: es) := by
  rw [stampsWith, stampsWith, List.countP_singleton, List.countP_cons]
  omega

/-- Adding entries succeeds just if they can all be made, one for each source, and at most one timestamp
format is among them and those before. Then these are added. -/
theorem addEach_eq_ok_iff {make : α → Except RecoveryFault Entry} {as : List α} :
    addEach make as r = .ok () r' ↔
      ∃ es, as.map make = es.map .ok ∧ stampsWith r es ≤ 1 ∧ r' = r.adding es := by
  induction as generalizing r with
  | nil =>
    have hle := stampsWith_nil_le r
    constructor
    · intro h
      exact ⟨[], rfl, hle, by rw [Recovery.adding_nil]; exact (EStateM.Result.ok.inj h).2.symm⟩
    · rintro ⟨es, hes, -, rfl⟩
      rw [List.map_nil, eq_comm, List.map_eq_nil_iff] at hes
      rw [hes, Recovery.adding_nil]
      rfl
  | cons a as ih =>
    rw [addEach]
    cases ha : make a with
    | error fault =>
      refine ⟨fun h => (by cases h), ?_⟩
      rintro ⟨es, hes, -⟩
      cases es <;> simp [ha] at hes
    | ok e =>
      dsimp only
      rw [bind_eq_ok_iff]
      constructor
      · rintro ⟨_, s, hfirst, hrest⟩
        obtain ⟨hle, rfl⟩ := addEntry_eq_ok_iff.mp hfirst
        obtain ⟨es, hes, hstamps, rfl⟩ := ih.mp hrest
        rw [stampsWith_adding hle] at hstamps
        refine ⟨e :: es, by rw [List.map_cons, List.map_cons, ha, hes], hstamps, ?_⟩
        rw [Recovery.adding_adding]
        rfl
      · rintro ⟨es, hes, hstamps, rfl⟩
        obtain ⟨e', es, rfl, hmake, hrest⟩ := List.map_eq_cons_iff.mp hes.symm
        obtain rfl := Except.ok.inj (hmake.trans ha)
        have hle := (stampsWith_singleton_le r e' es).trans hstamps
        refine ⟨(), r.adding [e'], addEntry_eq_ok_iff.mpr ⟨hle, rfl⟩, ih.mpr ⟨es, hrest.symm, ?_, ?_⟩⟩
        · rwa [stampsWith_adding hle]
        · rw [Recovery.adding_adding]
          rfl

/-- Entries that can all be made are refused for a second timestamp format only. -/
theorem addEach_eq_error {make : α → Except RecoveryFault Entry} {as : List α} {es : List Entry}
    (hes : as.map make = es.map .ok) (hstamps : 1 < stampsWith r es) :
    ∃ r', addEach make as r = .error .secondTimestamp r' := by
  induction as generalizing r es with
  | nil =>
    rw [List.map_nil, eq_comm, List.map_eq_nil_iff] at hes
    subst hes
    exact absurd hstamps (Nat.not_lt.mpr (stampsWith_nil_le r))
  | cons a as ih =>
    obtain ⟨e, es, rfl, hmake, hrest⟩ := List.map_eq_cons_iff.mp hes.symm
    rw [addEach, ← hmake]
    by_cases hle : stampsWith r [e] ≤ 1
    · obtain ⟨r', hr'⟩ := ih (r := r.adding [e]) hrest.symm (by rwa [stampsWith_adding hle])
      exact ⟨r', (bind_eq_of_ok (addEntry_eq_ok_iff.mpr ⟨hle, rfl⟩)).trans hr'⟩
    · exact ⟨r, bind_eq_of_error (addEntry_eq_error (Nat.lt_of_not_le hle))⟩

/-- If every source makes an entry, they make these. -/
theorem exists_made {make : α → Except RecoveryFault Entry} {as : List α}
    (hmake : ∀ a ∈ as, ∃ e, make a = .ok e) : ∃ es : List Entry, as.map make = es.map .ok := by
  induction as with
  | nil => exact ⟨[], rfl⟩
  | cons a as ih =>
    obtain ⟨e, he⟩ := hmake a List.mem_cons_self
    obtain ⟨es, hes⟩ := ih fun b hb => hmake b (List.mem_cons_of_mem _ hb)
    exact ⟨e :: es, by rw [List.map_cons, List.map_cons, he, hes]⟩

/-- The entries that were made are those of the sources. -/
theorem mem_made_iff {make : α → Except RecoveryFault Entry} {as : List α} {es : List Entry}
    (hes : as.map make = es.map .ok) {e : Entry} : e ∈ es ↔ ∃ a ∈ as, make a = .ok e := by
  have hmem : e ∈ es ↔ Except.ok e ∈ es.map (Except.ok (ε := RecoveryFault)) := by
    rw [List.mem_map_of_injective fun _ _ => Except.ok.inj]
  rw [hmem, ← hes, List.mem_map]

theorem exists_mem_made {make : α → Except RecoveryFault Entry} {as : List α} {es : List Entry}
    (hes : as.map make = es.map .ok) {a : α} (ha : a ∈ as) : ∃ e ∈ es, make a = .ok e := by
  have hmem : make a ∈ es.map (Except.ok (ε := RecoveryFault)) := hes ▸ List.mem_map_of_mem ha
  obtain ⟨e, he, heq⟩ := List.mem_map.mp hmem
  exact ⟨e, he, heq.symm⟩

/-- What is read off the entries that were made is what is read off their sources. -/
theorem map_made {γ : Type} {make : α → Except RecoveryFault Entry} {f : α → γ} {g : Entry → γ}
    (hmake : ∀ a e, make a = .ok e → g e = f a) {as : List α} {es : List Entry}
    (hes : as.map make = es.map .ok) : es.map g = as.map f := by
  induction as generalizing es with
  | nil =>
    rw [List.map_nil, eq_comm, List.map_eq_nil_iff] at hes
    rw [hes, List.map_nil, List.map_nil]
  | cons a as ih =>
    obtain ⟨e, es, rfl, he, hrest⟩ := List.map_eq_cons_iff.mp hes.symm
    rw [List.map_cons, List.map_cons, hmake a e he.symm, ih hrest.symm]

end Recovering

open Recovering

variable {r r' : Recovery}

namespace SymbolLayout

/-- Collecting symbols succeeds just if they state one version, the ranges of levels are closed, and every
candidate makes an entry. -/
theorem collect_eq_ok_iff {symbols : List ImageSymbol} :
    collect symbols r = .ok () r' ↔ ∃ version rs es, versions symbols = [version] ∧
      ranges (edges symbols) = .ok rs ∧
      (candidates symbols).map (entry rs) = es.map .ok ∧ stampsWith r es ≤ 1 ∧
      r' = Recovery.adding { r with version := some version } es := by
  unfold collect
  match versions symbols with
  | [] => exact ⟨fun h => (by cases h), fun ⟨_, _, _, h, _⟩ => (by cases h)⟩
  | [version] =>
    dsimp only
    rw [bind_eq_ok_iff]
    constructor
    · rintro ⟨_, s, hversion, hrest⟩
      obtain rfl := (EStateM.Result.ok.inj hversion).2
      cases hrs : ranges (edges symbols) with
      | error fault =>
        rw [hrs] at hrest
        cases hrest
      | ok rs =>
        rw [hrs] at hrest
        obtain ⟨es, hes, hstamps, rfl⟩ := addEach_eq_ok_iff.mp hrest
        exact ⟨version, rs, es, rfl, rfl, hes, hstamps, rfl⟩
    · rintro ⟨_, rs, es, hversion, hrs, hes, hstamps, rfl⟩
      obtain ⟨rfl, -⟩ := List.cons.inj hversion
      refine ⟨(), _, rfl, ?_⟩
      rw [hrs]
      exact addEach_eq_ok_iff.mpr ⟨es, hes, hstamps, rfl⟩
  | _ :: _ :: _ => exact ⟨fun h => (by cases h), fun ⟨_, _, _, h, _⟩ => (by cases h)⟩

/-- Attaching locations changes nothing but them. -/
theorem of_attach_eq_ok {image : Image} (h : attach image r = .ok () r') :
    r'.version = r.version ∧ r'.timestamp = r.timestamp ∧ ∃ place? : Entry → Option Location,
      r'.entries = r.entries.map fun e => { e with location := place? e } := by
  have hsame : r.entries = r.entries.map fun e => { e with location := e.location } := by simp
  unfold attach at h
  split at h
  · cases h
  · split_ifs at h
    · obtain rfl := (EStateM.Result.ok.inj h).2
      exact ⟨rfl, rfl, Entry.location, hsame⟩
    · obtain rfl := (EStateM.Result.ok.inj h).2
      exact ⟨rfl, rfl, _, rfl⟩
    · obtain rfl := (EStateM.Result.ok.inj h).2
      exact ⟨rfl, rfl, Entry.location, hsame⟩

end SymbolLayout

/-- A name that is looked up without a fault is empty or that of a level. -/
theorem Level.named_eq_ok_iff {name : String} {level : Option Level} :
    named name = .ok level ↔
      (name = "" ∨ (ofName? name).isSome = true) ∧ level = ofName? name := by
  unfold named
  by_cases hempty : name = ""
  · subst hempty
    rw [if_pos (String.isEmpty_iff.mpr rfl), Except.ok.injEq, eq_comm]
    exact ⟨fun h => ⟨.inl rfl, h⟩, And.right⟩
  · rw [if_neg (by simpa using hempty)]
    cases ofName? name with
    | none => simp [hempty]
    | some found => simp [eq_comm]

namespace RecordLayout

/-- The level names that records may have. -/
def IsKnownLevel (name : String) : Prop :=
  name = "" ∨ name = timestampName ∨ (Level.ofName? name).isSome = true

/-- A level name that is accepted stands for the level of that name, if there is one, and for its tag. -/
theorem levelAndTag_eq_ok_iff {offset : Nat} {name tag : String} {level : Option Level} :
    levelAndTag offset name = .ok (level, tag) ↔
      IsKnownLevel name ∧ level = Level.ofName? name ∧ tag = tagOf name := by
  unfold levelAndTag
  by_cases hstamp : name = timestampName
  · subst hstamp
    rw [if_pos rfl, Except.ok.injEq, Prod.mk.injEq, eq_comm, @eq_comm _ timestampTag]
    exact ⟨fun h => ⟨.inr (.inl rfl), h⟩, And.right⟩
  · rw [if_neg hstamp]
    by_cases hempty : name = ""
    · subst hempty
      rw [if_pos (String.isEmpty_iff.mpr rfl), Except.ok.injEq, Prod.mk.injEq, eq_comm,
        @eq_comm _ (tagStart ++ "fmt")]
      exact ⟨fun h => ⟨.inl rfl, h⟩, And.right⟩
    · rw [if_neg (by simpa using hempty), tagOf, if_neg hempty, IsKnownLevel, or_left_comm,
        or_iff_right hstamp, ← and_assoc, ← Level.named_eq_ok_iff]
      cases Level.named name <;> simp [eq_comm]

/-- The line number that a field states is the value of its digits. -/
theorem lineNumber_eq_ok {line : String} {stated : Option SourceLine} (h : lineNumber line = .ok stated) :
    stated = (Text.decimal? line.toList).map .number := by
  unfold lineNumber at h
  dsimp only at h
  split at h
  · next hplain =>
    obtain rfl := Except.ok.inj h
    rw [Bool.or_eq_true, Bool.not_eq_true'] at hplain
    have hnone : Text.decimal? line.toList = none := by
      refine if_neg fun hdigits => ?_
      rw [Bool.and_eq_true, Bool.not_eq_true'] at hdigits
      rcases hplain with hempty | hother
      · rw [hempty] at hdigits
        cases hdigits.1
      · rw [List.all_eq_true] at hdigits
        have hlike : line.toList.all Text.isDigitLike = true :=
          List.all_eq_true.mpr fun c hc => by rw [Text.isDigitLike, hdigits.2 c hc, Bool.true_or]
        rw [hother] at hlike
        cases hlike
    rw [hnone, Option.map_none]
  · split at h
    · next n hn =>
      obtain rfl := Except.ok.inj h
      rw [hn, Option.map_some]
    · cases h

/-- The entry that the fields of a record state. -/
def statedEntry (crate : String) (offset : Nat) (fs : Fields) : Entry where
  index := offset
  format := .string (field "msg" fs)
  level := Level.ofName? (field "level" fs)
  location :=
    if field "file" fs = "" then none
    else some ⟨field "module" fs, field "file" fs,
      (Text.decimal? (field "line" fs).toList).map .number⟩
  crate := .string (if field "crate" fs = "" then crate else field "crate" fs)
  tag := tagOf (field "level" fs)

theorem entryOfFields_eq_ok {crate : String} {offset : Nat} {fs : Fields} {e : Entry}
    (h : entryOfFields crate offset fs = .ok e) :
    IsKnownLevel (field "level" fs) ∧ e = statedEntry crate offset fs := by
  unfold entryOfFields at h
  split at h
  · cases h
  · next hlevel =>
    obtain ⟨hknown, rfl, rfl⟩ := levelAndTag_eq_ok_iff.mp hlevel
    split at h
    · cases h
    · next place hplace =>
      obtain rfl := Except.ok.inj h
      have hlocation : place = (statedEntry crate offset fs).location := by
        unfold location at hplace
        dsimp only at hplace
        split at hplace
        · next hfile =>
          obtain rfl := Except.ok.inj hplace
          exact (if_pos (by simpa using hfile)).symm
        · next hfile =>
          split at hplace
          · next hline =>
            obtain rfl := Except.ok.inj hplace
            rw [lineNumber_eq_ok hline]
            exact (if_neg (by simpa using hfile)).symm
          · cases hplace
      refine ⟨hknown, ?_⟩
      rw [hlocation]
      simp [statedEntry]

/-- A record that makes an entry is a text with fields, which state the entry. -/
theorem of_entry_eq_ok {keys : List Key} {crate : String} {record : Nat × List UInt8} {e : Entry}
    (h : entry keys crate record = .ok e) :
    ∃ text fs, Text.Utf8.decode record.2 = .ok text ∧ fields? keys text.toList = some fs ∧
      IsKnownLevel (field "level" fs) ∧ e = statedEntry crate record.1 fs := by
  unfold entry at h
  split at h
  · cases h
  · next text htext =>
    split at h
    · cases h
    · next fs hfs => exact ⟨text, fs, htext, hfs, entryOfFields_eq_ok h⟩

/-- Collecting records succeeds only if the header states a version and usable keys, and every record
makes an entry. -/
theorem of_collect_eq_ok {data : List UInt8} (h : collect data r = .ok () r') :
    ∃ version keys es, (header data).version = some version ∧ recordKeys data = .ok keys ∧
      (records data).map (entry keys (header data).crate) = es.map .ok ∧
      stampsWith r es ≤ 1 ∧ r' = Recovery.adding { r with version := some version } es := by
  rw [collect_eq, bind_eq_ok_iff] at h
  obtain ⟨_, s, hversion, hrest⟩ := h
  generalize (readFields ⟨none, none, ""⟩ (splitAt ',' (headerText data).toList)).2 = unknown at hrest
  cases unknown with
  | some fault => cases hrest
  | none =>
    cases hv : (header data).version with
    | none =>
      rw [hv] at hrest
      cases hrest
    | some version =>
      rw [noteHeaderVersion, hv] at hversion
      obtain rfl := (EStateM.Result.ok.inj hversion).2
      cases hkeys : recordKeys data with
      | error fault =>
        rw [hv, hkeys] at hrest
        cases hrest
      | ok keys =>
        rw [hv, hkeys] at hrest
        obtain ⟨es, hes, hstamps, rfl⟩ := addEach_eq_ok_iff.mp hrest
        exact ⟨version, keys, es, rfl, rfl, hes, hstamps, rfl⟩

end RecordLayout

/-! ## Whole recoveries -/

namespace Image

variable {image : Image} {supported : String} {maxDepth : Nat} {t : Table}

theorem checkVersion_eq_ok_iff : checkVersion supported r = .ok () r' ↔
    r' = r ∧ ∃ marker v, r.version = some marker ∧ Version.check marker supported = .ok v := by
  constructor
  · intro h
    unfold checkVersion at h
    cases hmarker : r.version with
    | none =>
      rw [hmarker] at h
      cases h
    | some marker =>
      rw [hmarker] at h
      dsimp only at h
      cases hcheck : Version.check marker supported with
      | error cause =>
        rw [hcheck] at h
        cases h
      | ok v =>
        rw [hcheck] at h
        exact ⟨(EStateM.Result.ok.inj h).2.symm, marker, v, rfl, hcheck⟩
  · rintro ⟨rfl, marker, v, hmarker, hcheck⟩
    exact checkVersion_eq_ok hmarker hcheck

theorem of_finish_eq_ok (h : finish maxDepth r = .ok t r') :
    Table.ofEntries r.entries (r.version.getD "") r.timestamp maxDepth = .ok t ∧
      r'.entries = r.entries := by
  unfold finish at h
  split at h
  · next ht =>
    obtain ⟨rfl, rfl⟩ := EStateM.Result.ok.inj h
    exact ⟨ht, rfl⟩
  · cases h

theorem of_build_eq_ok (h : (image.build supported maxDepth).1 = .ok t) :
    image.recover supported maxDepth Recovery.empty = .ok t (image.build supported maxDepth).2 := by
  unfold build at h ⊢
  cases hr : image.recover supported maxDepth Recovery.empty with
  | ok t' r =>
    rw [hr] at h
    rw [← Except.ok.inj h]
  | error fault r =>
    rw [hr] at h
    cases h

theorem of_build_eq_error {fault : RecoveryFault} (h : (image.build supported maxDepth).1 = .error fault) :
    ∃ r, image.recover supported maxDepth Recovery.empty = .error fault r := by
  unfold build at h
  cases hr : image.recover supported maxDepth Recovery.empty with
  | ok t r =>
    rw [hr] at h
    cases h
  | error fault' r =>
    rw [hr] at h
    exact ⟨r, by rw [Except.error.inj h]⟩

/-- A table of the symbol layout is one of the entries of the candidates, at some places. -/
theorem of_build_symbols (hlayout : image.symbols.any isFormatSymbol = true)
    (h : (image.build supported maxDepth).1 = .ok t) :
    ∃ version v rs es, ∃ place? : Entry → Option Location,
      SymbolLayout.versions image.symbols = [version] ∧ Version.check version supported = .ok v ∧
      SymbolLayout.ranges (SymbolLayout.edges image.symbols) = .ok rs ∧
      (SymbolLayout.candidates image.symbols).map (SymbolLayout.entry rs) = es.map .ok ∧
      es.countP Entry.isTimestamp ≤ 1 ∧
      Table.ofEntries (es.map fun e => { e with location := place? e }) version (timestampIndex? es)
        maxDepth = .ok t := by
  have hrecover := of_build_eq_ok h
  rw [recover_of_symbols hlayout, bind_eq_ok_iff] at hrecover
  obtain ⟨_, r, hprepare, hrest⟩ := hrecover
  obtain ⟨_, r₁, hattach, hfinish⟩ := bind_eq_ok_iff.mp hrest
  obtain ⟨_, r₂, hreport, hcollects⟩ := bind_eq_ok_iff.mp hprepare
  obtain rfl := (EStateM.Result.ok.inj hreport).2
  obtain ⟨_, r₃, hcollect, hchecks⟩ := bind_eq_ok_iff.mp hcollects
  obtain ⟨_, r₄, hcheck, hlast⟩ := bind_eq_ok_iff.mp hchecks
  obtain rfl := (EStateM.Result.ok.inj hlast).2
  obtain ⟨version, rs, es, hversion, hrs, hes, hstamps, rfl⟩ :=
    SymbolLayout.collect_eq_ok_iff.mp hcollect
  obtain ⟨rfl, marker, v, hmarker, hv⟩ := checkVersion_eq_ok_iff.mp hcheck
  obtain rfl := Option.some.inj hmarker
  obtain ⟨hsame, hstamp, place?, hentries⟩ := SymbolLayout.of_attach_eq_ok hattach
  obtain ⟨ht, -⟩ := of_finish_eq_ok hfinish
  rw [hentries, hsame, hstamp] at ht
  refine ⟨version, v, rs, es, place?, hversion, hv, hrs, hes, ?_, ht⟩
  simpa [stampsWith, Recovery.empty] using hstamps

/-- A table of the record layout is one of the entries of the records. -/
theorem of_build_records (hlayout : image.symbols.any isFormatSymbol = false)
    (h : (image.build supported maxDepth).1 = .ok t) :
    ∃ data version v keys es, image.sectionData? recordSection = some data ∧
      (RecordLayout.header data).version = some version ∧ Version.check version supported = .ok v ∧
      RecordLayout.recordKeys data = .ok keys ∧
      (RecordLayout.records data).map (RecordLayout.entry keys (RecordLayout.header data).crate) =
        es.map .ok ∧
      es.countP Entry.isTimestamp ≤ 1 ∧ (image.build supported maxDepth).2.entries = es ∧
      Table.ofEntries es version (timestampIndex? es) maxDepth = .ok t := by
  have hrecover := of_build_eq_ok h
  cases hdata : image.sectionData? recordSection with
  | none =>
    unfold recover at hrecover
    obtain ⟨_, r, -, hrest⟩ := bind_eq_ok_iff.mp hrecover
    rw [hlayout, hdata] at hrest
    obtain ⟨_, r₁, hfail, -⟩ := bind_eq_ok_iff.mp hrest
    cases hfail
  | some data =>
    rw [recover_of_section hlayout hdata] at hrecover
    obtain ⟨_, r, hcollect, hrest⟩ := bind_eq_ok_iff.mp hrecover
    obtain ⟨_, r₁, hcheck, hfinish⟩ := bind_eq_ok_iff.mp hrest
    obtain ⟨version, keys, es, hversion, hkeys, hes, hstamps, rfl⟩ :=
      RecordLayout.of_collect_eq_ok hcollect
    obtain ⟨rfl, marker, v, hmarker, hv⟩ := checkVersion_eq_ok_iff.mp hcheck
    obtain rfl := Option.some.inj hmarker
    obtain ⟨ht, hentries⟩ := of_finish_eq_ok hfinish
    refine ⟨data, version, v, keys, es, rfl, hversion, hv, hkeys, hes, ?_, hentries, ht⟩
    simpa [stampsWith, Recovery.empty] using hstamps

/-- The table that is built with the supported version, if there is one. -/
def table? (image : Image) : Option Table :=
  (image.build Version.wireFormat Table.defaultMaxDepth).1.toOption

theorem exists_of_table? {α : Type} {view : Table → α} {found : α}
    (h : image.table?.map view = some found) :
    ∃ t, (image.build Version.wireFormat Table.defaultMaxDepth).1 = .ok t ∧ view t = found := by
  obtain ⟨t, ht, hview⟩ := Option.map_eq_some_iff.mp h
  refine ⟨t, ?_, hview⟩
  unfold table? at ht
  cases hb : (image.build Version.wireFormat Table.defaultMaxDepth).1 with
  | ok t' =>
    rw [hb] at ht
    rw [Option.some.inj ht]
  | error cause =>
    rw [hb] at ht
    cases ht

end Image

end DeferredLog
