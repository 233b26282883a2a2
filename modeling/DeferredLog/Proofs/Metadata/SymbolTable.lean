import DeferredLog.Proofs.Metadata.LevelRanges
import DeferredLog.Proofs.Metadata.LevelTags

/-!
# What a table of symbols requires

A table of the symbol layout has eight requirements, of the image as a whole and in terms of its symbols
and locations only. They are checked in a fixed order, and a recovery keeps all that were checked so far:

    MetBelow n before a step → MetBelow n' after it, or the first requirement that is not met explains the fault
                                                (collect_decides, checkVersion_decides, attach_decides, finish_decides)

So a table is built just if all are met, and otherwise the first that is not decides the fault. The table
has one entry for each symbol that is a format string, and it is the one that its name, the markers and
the locations state (`build_symbols`).
-/

namespace DeferredLog

open Recovering

namespace SymbolLayout

/-! ## What symbols state -/

/-- A symbol states a version. -/
def StatesVersion (symbols : List ImageSymbol) (version : String) : Prop :=
  ∃ s ∈ symbols, versionMarker? s.name = some version

/-- The tags in metadata are texts. -/
def HasTextTags (symbols : List ImageSymbol) : Prop :=
  ∀ s ∈ candidates symbols, ∀ format tag crate, metadata? s.name = some (format, tag, crate) →
    ∃ text, tag = .string text

/-- Whether a symbol is a timestamp format. -/
def isTimestampSymbol (s : ImageSymbol) : Bool :=
  (metadata? s.name).any fun m => m.2.1.text? = some timestampTag

/-- A format string has a level: the one that the tag in its metadata names, or without metadata that of
the range that it is in. -/
def HasLevel (symbols : List ImageSymbol) (s : ImageSymbol) (level : Level) : Prop :=
  match metadata? s.name with
  | some (_, tag, _) => tag = .string (tagStart ++ level.tagName)
  | none => InRange symbols level s.address

/-- Every log statement has a live location. -/
def AllPlaced (image : Image) : Prop :=
  ∀ s ∈ candidates image.symbols, (∃ level, HasLevel image.symbols s level) →
    ∃ place, image.LiveAt s.address place

/-- An address has a location, if every log statement has one. -/
def Locates (image : Image) (address : Nat) (place : Location) : Prop :=
  AllPlaced image ∧ image.LiveAt address place

/-- The entry of a format string: the format, the tag and the crate are those in its metadata, or else the
name, the tag for the level, and no crate. -/
structure IsEntryOf (image : Image) (s : ImageSymbol) (e : Entry) : Prop where
  index : e.index = s.address
  level : ∀ level, e.level = some level ↔ HasLevel image.symbols s level
  stated : ∀ format tag crate, metadata? s.name = some (format, tag, crate) →
    e.format = format ∧ tag = .string e.tag ∧ e.crate = crate
  plain : metadata? s.name = none → e.format = .string s.name ∧ e.tag = tagOf e.level ∧
    e.crate = .string ""
  location : ∀ place, e.location = some place ↔ Locates image s.address place

/-- A table holds what the symbols state: one entry for each of the format strings. -/
structure Shows (image : Image) (t : Table) : Prop where
  version : StatesVersion image.symbols t.version
  indices : t.indices.Perm ((candidates image.symbols).map ImageSymbol.address)
  entries : ∀ e, e ∈ t.entries ↔ ∃ s ∈ candidates image.symbols, IsEntryOf image s e
  timestamp : ∀ i, t.timestamp = some i ↔
    ∃ s ∈ candidates image.symbols, isTimestampSymbol s = true ∧ s.address = i

/-! ## Requirements -/

/-- What a table of symbols requires. -/
inductive Requirement where
  | versionStated
  | versionOnce
  | rangesClosed
  | timestampOnce
  | versionSupported
  | locationsApart
  | locationsRead
  | addressesApart
  deriving DecidableEq, Repr

namespace Requirement

/-- The place in the order in which requirements are checked. -/
def rank : Requirement → Nat
  | versionStated => 0
  | versionOnce => 1
  | rangesClosed => 2
  | timestampOnce => 3
  | versionSupported => 4
  | locationsApart => 5
  | locationsRead => 6
  | addressesApart => 7

/-- The group of the fault if the requirement is not met. -/
def kind : Requirement → RecoveryFault.Kind
  | versionStated | rangesClosed | timestampOnce | locationsApart => .noTable
  | versionOnce | versionSupported => .incompatible
  | locationsRead => .location
  | addressesApart => .duplicateIndex

/-- Whether an image meets a requirement. -/
def Met (image : Image) (supported : String) : Requirement → Prop
  | versionStated => ∃ version, StatesVersion image.symbols version
  | versionOnce => ∀ version version', StatesVersion image.symbols version →
      StatesVersion image.symbols version' → version = version'
  | rangesClosed => RangesClosed image.symbols
  | timestampOnce => (candidates image.symbols).countP isTimestampSymbol ≤ 1
  | versionSupported => ∃ version found ours, StatesVersion image.symbols version ∧
      Version.parse? version = some found ∧ Version.parse? supported = some ours ∧
      found.major = ours.major ∧
      (found.minor < ours.minor ∨ found.minor = ours.minor ∧ found.patch ≤ ours.patch)
  | locationsApart => image.LiveApart
  | locationsRead => image.locationFault = none
  | addressesApart => ((candidates image.symbols).map ImageSymbol.address).Nodup

/-- The first requirement that is not met. -/
def IsFirstUnmet (image : Image) (supported : String) (q : Requirement) : Prop :=
  ¬ q.Met image supported ∧ ∀ p : Requirement, p.rank < q.rank → p.Met image supported

/-- A fault for a requirement that is not met. A version may be refused for that of the decoder, too. -/
def Explains (image : Image) (supported : String) (q : Requirement) (fault : RecoveryFault) : Prop :=
  match q with
  | versionSupported => ∃ version cause, StatesVersion image.symbols version ∧
      Version.check version supported = .error cause ∧ fault = .version cause
  | q => fault.kind = q.kind

/-- All requirements up to a place in the order are met. -/
def MetBelow (image : Image) (supported : String) (n : Nat) : Prop :=
  ∀ p : Requirement, p.rank < n → p.Met image supported

variable {image : Image} {supported : String} {p q : Requirement}

theorem rank_injective (h : p.rank = q.rank) : p = q := by
  cases p <;> cases q <;> first | rfl | cases h

theorem MetBelow.next (h : MetBelow image supported q.rank) (hq : q.Met image supported) :
    MetBelow image supported (q.rank + 1) := by
  intro p hp
  rcases Nat.lt_succ_iff_lt_or_eq.mp hp with hlt | heq
  · exact h p hlt
  · exact rank_injective heq ▸ hq

theorem IsFirstUnmet.unique (hp : p.IsFirstUnmet image supported) (hq : q.IsFirstUnmet image supported) :
    p = q := by
  rcases Nat.lt_trichotomy p.rank q.rank with hlt | heq | hgt
  · exact absurd (hq.2 p hlt) hp.1
  · exact rank_injective heq
  · exact absurd (hp.2 q hgt) hq.1

end Requirement

open Requirement

/-! ## Versions -/

section
variable {symbols : List ImageSymbol} {version : String}

theorem mem_versions_iff : version ∈ versions symbols ↔ StatesVersion symbols version := by
  rw [versions, List.mem_eraseDups, List.mem_filterMap]
  rfl

theorem versions_eq_singleton (h : versions symbols = [version]) {version' : String} :
    StatesVersion symbols version' ↔ version' = version := by
  rw [← mem_versions_iff, h, List.mem_singleton]

theorem ne_of_versions {version' : String} {rest : List String}
    (h : versions symbols = version :: version' :: rest) : version ≠ version' := by
  unfold versions at h
  cases hstated : symbols.filterMap fun s => versionMarker? s.name with
  | nil =>
    rw [hstated] at h
    cases h
  | cons first others =>
    rw [hstated, List.eraseDups_cons] at h
    obtain ⟨rfl, hrest⟩ := List.cons.inj h
    have hmem : version' ∈ (others.filter fun b => !b == first).eraseDups := by
      rw [hrest]
      exact List.mem_cons_self
    rw [List.mem_eraseDups, List.mem_filter] at hmem
    intro heq
    rw [heq, beq_self_eq_true] at hmem
    cases hmem.2

theorem isNewerThan_eq_false_iff {v w : Version} : v.isNewerThan w = false ↔
    v.minor < w.minor ∨ v.minor = w.minor ∧ v.patch ≤ w.patch := by
  unfold Version.isNewerThan
  rw [Bool.or_eq_false_iff, Bool.and_eq_false_iff]
  simp only [decide_eq_false_iff_not, Nat.not_lt]
  omega

/-- A version that is supported is had from its check. -/
theorem check_eq_ok_iff {marker supported : String} {v : Version} :
    Version.check marker supported = .ok v ↔ Version.parse? marker = some v ∧
      ∃ ours, Version.parse? supported = some ours ∧ v.major = ours.major ∧
        (v.minor < ours.minor ∨ v.minor = ours.minor ∧ v.patch ≤ ours.patch) := by
  unfold Version.check
  cases Version.parse? marker with
  | none => simp
  | some found =>
    cases Version.parse? supported with
    | none => simp
    | some ours =>
      dsimp only
      simp only [Option.some.injEq, exists_eq_left']
      split_ifs with hmajor hnewer
      · refine iff_of_false (by simp) ?_
        rintro ⟨rfl, hsame, -⟩
        exact hmajor hsame
      · refine iff_of_false (by simp) ?_
        rintro ⟨rfl, -, hnot⟩
        rw [isNewerThan_eq_false_iff.mpr hnot] at hnewer
        cases hnewer
      · rw [Except.ok.injEq]
        refine ⟨?_, And.left⟩
        rintro rfl
        exact ⟨rfl, not_not.mp hmajor, isNewerThan_eq_false_iff.mp (Bool.eq_false_iff.mpr hnewer)⟩

end

/-! ## Entries -/

section
variable {image : Image} {symbols : List ImageSymbol} {rs : List LevelRange} {s : ImageSymbol} {e : Entry}

/-- A format string makes an entry, if its tag is a text. -/
theorem exists_entry (htags : HasTextTags symbols) (hs : s ∈ candidates symbols) :
    ∃ e, entry rs s = .ok e := by
  unfold entry
  cases hmeta : metadata? s.name with
  | none => exact ⟨_, rfl⟩
  | some m =>
    obtain ⟨format, tag, crate⟩ := m
    obtain ⟨text, rfl⟩ := htags s hs format tag crate hmeta
    exact ⟨_, rfl⟩

/-- No level has the tag of the timestamp format. -/
theorem tagOf_ne_timestampTag (level : Option Level) : tagOf level ≠ timestampTag := by
  cases level with
  | none => decide
  | some level => cases level <;> decide

theorem isTimestamp_of_entry (h : entry rs s = .ok e) : e.isTimestamp = isTimestampSymbol s := by
  unfold entry at h
  unfold isTimestampSymbol
  split at h
  · next hmeta =>
    obtain rfl := Except.ok.inj h
    rw [hmeta, Option.any_some, Json.text?, Entry.isTimestamp]
    simp
  · cases h
  · next hmeta =>
    obtain rfl := Except.ok.inj h
    rw [hmeta]
    exact decide_eq_false (tagOf_ne_timestampTag _)

/-- The level of an entry is that of its symbol. -/
theorem level_iff_of_entry (hmarkers : MarkersApart symbols) (hrs : ranges (edges symbols) = .ok rs)
    (h : entry rs s = .ok e) (level : Level) : e.level = some level ↔ HasLevel symbols s level := by
  unfold entry at h
  unfold HasLevel
  split at h
  · next hmeta =>
    obtain rfl := Except.ok.inj h
    rw [hmeta, levelOfTag?_eq_some_iff]
    exact (Json.string.injEq _ _).symm ▸ Iff.rfl
  · cases h
  · next hmeta =>
    obtain rfl := Except.ok.inj h
    rw [hmeta, levelAt?_eq_some_iff hmarkers hrs]

/-- An entry is that of its symbol, once it has the location of its address. -/
theorem isEntryOf_located (hmarkers : MarkersApart image.symbols)
    (hrs : ranges (edges image.symbols) = .ok rs) (h : entry rs s = .ok e)
    {place? : Nat → Option Location}
    (hplaces : ∀ place, place? s.address = some place ↔ Locates image s.address place) :
    IsEntryOf image s (e.located place?) where
  index := (of_entry_eq_ok h).2
  level level := (level_iff_of_entry hmarkers hrs h level : e.level = some level ↔ _)
  stated := by
    intro format tag crate hmeta
    unfold entry at h
    rw [hmeta] at h
    split at h
    · next heq =>
      obtain ⟨rfl, rfl, rfl⟩ := by simpa using heq
      obtain rfl := Except.ok.inj h
      exact ⟨rfl, rfl, rfl⟩
    · cases h
    · next heq => cases heq
  plain := by
    intro hmeta
    unfold entry at h
    rw [hmeta] at h
    obtain rfl := Except.ok.inj h
    exact ⟨rfl, rfl, rfl⟩
  location := by
    intro place
    rw [Entry.located, (of_entry_eq_ok h).2]
    exact hplaces place

/-- A symbol has one entry only. -/
theorem IsEntryOf.unique {e' : Entry} (h : IsEntryOf image s e) (h' : IsEntryOf image s e') : e = e' := by
  have hlevel : e.level = e'.level := Option.ext fun level => by rw [h.level, h'.level]
  have hlocation : e.location = e'.location := Option.ext fun place => by rw [h.location, h'.location]
  have hindex : e.index = e'.index := h.index.trans h'.index.symm
  have hrest : e.format = e'.format ∧ e.tag = e'.tag ∧ e.crate = e'.crate := by
    cases hmeta : metadata? s.name with
    | none =>
      obtain ⟨hformat, htag, hcrate⟩ := h.plain hmeta
      obtain ⟨hformat', htag', hcrate'⟩ := h'.plain hmeta
      exact ⟨hformat.trans hformat'.symm, by rw [htag, htag', hlevel], hcrate.trans hcrate'.symm⟩
    | some m =>
      obtain ⟨hformat, htag, hcrate⟩ := h.stated m.1 m.2.1 m.2.2 hmeta
      obtain ⟨hformat', htag', hcrate'⟩ := h'.stated m.1 m.2.1 m.2.2 hmeta
      exact ⟨hformat.trans hformat'.symm, Json.string.inj (htag.symm.trans htag'),
        hcrate.trans hcrate'.symm⟩
  obtain ⟨hformat, htag, hcrate⟩ := hrest
  cases e
  cases e'
  rw [Entry.mk.injEq]
  exact ⟨hindex, hformat, hlevel, hlocation, hcrate, htag⟩

end

/-! ## Steps -/

section
variable {image : Image} {supported : String} {r : Recovery} {rs : List LevelRange} {es : List Entry}

/-- A recovery may end in a fault that the first requirement not met explains. -/
def EndsExplained (image : Image) (supported : String) (fault : RecoveryFault) : Prop :=
  ∃ q : Requirement, q.IsFirstUnmet image supported ∧ q.Explains image supported fault

/-- What has been collected: the version, and the entries of the format strings. -/
structure Collected (image : Image) (rs : List LevelRange) (es : List Entry) (r : Recovery) : Prop where
  version : ∃ version, r.version = some version ∧ StatesVersion image.symbols version
  ranges : ranges (edges image.symbols) = .ok rs
  made : (candidates image.symbols).map (entry rs) = es.map .ok
  entries : r.entries = es
  stamps : es.countP Entry.isTimestamp ≤ 1
  timestamp : r.timestamp = timestampIndex? es

theorem endsExplained {q : Requirement} {fault : RecoveryFault}
    (hbelow : MetBelow image supported q.rank) (hunmet : ¬ q.Met image supported)
    (hfault : q.Explains image supported fault) : EndsExplained image supported fault :=
  ⟨q, ⟨hunmet, hbelow⟩, hfault⟩

theorem countP_isTimestamp (hes : (candidates image.symbols).map (entry rs) = es.map .ok) :
    es.countP Entry.isTimestamp = (candidates image.symbols).countP isTimestampSymbol := by
  have hmap : es.map Entry.isTimestamp = (candidates image.symbols).map isTimestampSymbol :=
    map_made (fun _ _ => isTimestamp_of_entry) hes
  have hcount := congrArg (List.countP id) hmap
  rwa [List.countP_map, List.countP_map] at hcount

/-- Making entries goes through the requirement of timestamp formats. -/
theorem addEach_decides (htags : HasTextTags image.symbols) (hrs : ranges (edges image.symbols) = .ok rs)
    (hbelow : MetBelow image supported timestampOnce.rank) (hentries : r.entries = [])
    (hstamp : r.timestamp = none) {version : String} (hversion : r.version = some version)
    (hstates : StatesVersion image.symbols version) :
    EndsIn (EndsExplained image supported)
      (fun _ r' => MetBelow image supported versionSupported.rank ∧ ∃ rs es, Collected image rs es r')
      (addEach (entry rs) (candidates image.symbols)) r := by
  have hmade : ∃ es : List Entry, (candidates image.symbols).map (entry rs) = es.map .ok :=
    exists_made fun s hs => exists_entry htags hs
  obtain ⟨es, hes⟩ := hmade
  have hcount := countP_isTimestamp hes
  have hstamps : stampsWith r es = es.countP Entry.isTimestamp := by
    rw [stampsWith, hstamp, Option.toList_none, List.length_nil, Nat.zero_add]
  by_cases honce : es.countP Entry.isTimestamp ≤ 1
  · have hmet : timestampOnce.Met image supported := hcount.symm.le.trans honce
    refine .of_ok (addEach_eq_ok_iff.mpr ⟨es, hes, hstamps.trans_le honce, rfl⟩)
      ⟨MetBelow.next hbelow hmet, rs, es, ?_⟩
    · refine ⟨⟨version, hversion, hstates⟩, hrs, hes, ?_, honce, ?_⟩
      · rw [Recovery.adding, hentries, List.nil_append]
      · rw [Recovery.adding, hstamp, Option.none_or]
  · obtain ⟨r', hr'⟩ := addEach_eq_error (r := r) hes (hstamps ▸ Nat.lt_of_not_le honce)
    exact .of_error hr' (endsExplained hbelow (fun hmet => honce (hcount.le.trans hmet)) rfl)

/-- Collecting goes through the requirements of versions, ranges and timestamp formats. -/
theorem collect_decides (htags : HasTextTags image.symbols) (hentries : r.entries = [])
    (hstamp : r.timestamp = none) :
    EndsIn (EndsExplained image supported)
      (fun _ r' => MetBelow image supported versionSupported.rank ∧ ∃ rs es, Collected image rs es r')
      (collect image.symbols) r := by
  have hbelow : MetBelow image supported versionStated.rank := fun p hp => absurd hp (Nat.not_lt_zero _)
  unfold collect
  cases hversions : versions image.symbols with
  | nil =>
    refine .fail (endsExplained hbelow ?_ rfl)
    rintro ⟨version, hstates⟩
    rw [← mem_versions_iff, hversions] at hstates
    cases hstates
  | cons version rest =>
    have hstates : StatesVersion image.symbols version :=
      mem_versions_iff.mp (hversions ▸ List.mem_cons_self)
    have hbelow : MetBelow image supported versionOnce.rank := hbelow.next ⟨version, hstates⟩
    cases rest with
    | cons version' rest =>
      refine .fail (endsExplained hbelow (fun honce => ?_) rfl)
      have hstates' : StatesVersion image.symbols version' :=
        mem_versions_iff.mp (hversions ▸ List.mem_cons_of_mem _ List.mem_cons_self)
      exact ne_of_versions hversions (honce version version' hstates hstates')
    | nil =>
      have honce : versionOnce.Met image supported := by
        intro v v' hv hv'
        rw [versions_eq_singleton hversions] at hv hv'
        exact hv.trans hv'.symm
      have hbelow : MetBelow image supported rangesClosed.rank := MetBelow.next hbelow honce
      refine EndsIn.bind (Q := fun _ r' => r' = { r with version := some version }) rfl ?_
      rintro _ _ rfl
      cases hrs : ranges (edges image.symbols) with
      | error fault =>
        have hgives := ranges_gives (edges image.symbols)
        rw [hrs, gives_error_iff] at hgives
        obtain ⟨e, -, -, rfl⟩ := hgives
        refine .fail (endsExplained hbelow (fun hclosed => ?_) rfl)
        obtain ⟨rs, hok⟩ := exists_ranges_iff.mpr hclosed
        rw [hrs] at hok
        cases hok
      | ok rs =>
        have hclosed : rangesClosed.Met image supported := exists_ranges_iff.mp ⟨rs, hrs⟩
        exact addEach_decides htags hrs (MetBelow.next hbelow hclosed) hentries hstamp rfl hstates

/-- The version check goes through the requirement of a supported version. -/
theorem checkVersion_decides {version : String} (hbelow : MetBelow image supported versionSupported.rank)
    (hversion : r.version = some version) (hstates : StatesVersion image.symbols version) :
    EndsIn (EndsExplained image supported)
      (fun _ r' => r' = r ∧ MetBelow image supported locationsApart.rank)
      (Image.checkVersion supported) r := by
  cases hcheck : Version.check version supported with
  | ok v =>
    have hsupported : versionSupported.Met image supported := by
      obtain ⟨hfound, ours, hours, hmajor, hnot⟩ := check_eq_ok_iff.mp hcheck
      exact ⟨version, v, ours, hstates, hfound, hours, hmajor, hnot⟩
    exact .of_ok (Image.checkVersion_eq_ok hversion hcheck) ⟨rfl, hbelow.next hsupported⟩
  | error cause =>
    have hfail : Image.checkVersion supported r = .error (.version cause) r := by
      rw [Image.checkVersion, hversion]
      dsimp only
      rw [hcheck]
    refine .of_error hfail (endsExplained hbelow ?_ ⟨version, cause, hstates, hcheck, rfl⟩)
    rintro ⟨version', found, ours, hstates', hfound, hours, hmajor, hnot⟩
    have honce : versionOnce.Met image supported := hbelow versionOnce (by decide)
    rw [honce version' version hstates' hstates] at hfound
    have hok := check_eq_ok_iff.mpr ⟨hfound, ours, hours, hmajor, hnot⟩
    rw [hcheck] at hok
    cases hok

/-- What there is once locations have been attached: every entry has that of its address. -/
structure Attached (image : Image) (rs : List LevelRange) (es : List Entry) (place? : Nat → Option Location)
    (r : Recovery) : Prop where
  collected : Collected image rs es { r with entries := es }
  entries : r.entries = es.map (Entry.located place?)
  places : ∀ a place, place? a = some place ↔ Locates image a place

/-- Locations of one address are refused. -/
theorem attach_of_not_liveApart (hapart : ¬ image.LiveApart) :
    ∃ fault, fault.kind = .noTable ∧ attach image r = .error fault r := by
  have hgives := byAddress_gives (liveLocations image.symbols image.locations) {}
  cases hknown : byAddress (liveLocations image.symbols image.locations) {} with
  | ok known =>
    rw [hknown, gives_ok_iff] at hgives
    exact absurd (pairwise_liveLocations_iff.mp hgives.1) hapart
  | error fault =>
    rw [hknown, gives_error_iff] at hgives
    exact ⟨fault, hgives, by rw [attach, knownLocations, hknown]⟩

theorem Collected.mem_entries_iff (hr : Collected image rs es r) {e : Entry} :
    e ∈ r.entries ↔ ∃ s ∈ candidates image.symbols, entry rs s = .ok e :=
  hr.entries ▸ mem_made_iff hr.made

/-- Entries have no locations at first. -/
theorem Collected.location_eq_none (hr : Collected image rs es r) {e : Entry} (he : e ∈ r.entries) :
    e.location = none := by
  obtain ⟨s, -, hs⟩ := hr.mem_entries_iff.mp he
  exact (of_entry_eq_ok hs).1

theorem Collected.reporting (hr : Collected image rs es r) (records : List Log.Record) :
    Collected image rs es { r with entries := es, records } :=
  ⟨hr.version, hr.ranges, hr.made, rfl, hr.stamps, hr.timestamp⟩

/-- If every log statement has a location, all of them are attached. -/
theorem attach_of_allPlaced (hmarkers : MarkersApart image.symbols) (hr : Collected image rs es r)
    (hfault : image.locationFault = none) (hapart : image.LiveApart) (hall : AllPlaced image) :
    ∃ place? r', attach image r = .ok () r' ∧ Attached image rs es place? r' := by
  have hcomplete (e : Entry) (he : e ∈ r.entries) (hlevel : e.level.isSome = true) :
      ∃ place, image.LiveAt e.index place := by
    obtain ⟨s, hs, hentry⟩ := hr.mem_entries_iff.mp he
    obtain ⟨level, hlevel⟩ := Option.isSome_iff_exists.mp hlevel
    rw [(of_entry_eq_ok hentry).2]
    exact hall s hs ⟨level, (level_iff_of_entry hmarkers hr.ranges hentry level).mp hlevel⟩
  obtain ⟨place?, hplaces, hattach⟩ :=
    attach_of_complete hfault hapart hcomplete fun e he => hr.location_eq_none he
  refine ⟨place?, _, hattach, hr.reporting _, by rw [hr.entries], fun a place => ?_⟩
  rw [hplaces, Locates, and_iff_right hall]

/-- If a log statement has no location, none is attached. -/
theorem attach_of_not_allPlaced (hmarkers : MarkersApart image.symbols) (hr : Collected image rs es r)
    (hfault : image.locationFault = none) (hapart : image.LiveApart) (hall : ¬ AllPlaced image) :
    ∃ place? r', attach image r = .ok () r' ∧ Attached image rs es place? r' := by
  have hmissing : ∃ s ∈ candidates image.symbols, (∃ level, HasLevel image.symbols s level) ∧
      ∀ place, ¬ image.LiveAt s.address place := by
    simpa [AllPlaced, not_forall] using hall
  obtain ⟨s, hs, ⟨level, hlevel⟩, hunplaced⟩ := hmissing
  obtain ⟨e, he, hentry⟩ := exists_mem_made hr.made hs
  have hsome : e.level = some level :=
    (level_iff_of_entry hmarkers hr.ranges hentry level).mpr hlevel
  rw [← (of_entry_eq_ok hentry).2] at hunplaced
  obtain ⟨records, hattach⟩ := attach_of_missing hfault hapart (hr.entries ▸ he)
    (by rw [hsome, Option.isSome_some]) hunplaced
  refine ⟨fun _ => none, _, hattach, hr.reporting _, ?_, fun a place => ?_⟩
  · have hself (e : Entry) (he : e ∈ es) : e.located (fun _ => none) = e := by
      rw [Entry.located, ← hr.location_eq_none (hr.entries ▸ he)]
    rw [List.map_congr_left hself, List.map_id', ← hr.entries]
  · exact iff_of_false (fun h => by cases h) fun h => hall h.1

/-- Attaching goes through the requirements of locations. -/
theorem attach_decides (hmarkers : MarkersApart image.symbols)
    (hbelow : MetBelow image supported locationsApart.rank) (hr : Collected image rs es r) :
    EndsIn (EndsExplained image supported)
      (fun _ r' => MetBelow image supported addressesApart.rank ∧ ∃ place?, Attached image rs es place? r')
      (attach image) r := by
  by_cases hapart : image.LiveApart
  · have hbelow : MetBelow image supported locationsRead.rank := MetBelow.next hbelow hapart
    cases hfault : image.locationFault with
    | some fault =>
      refine .of_error (attach_of_fault hfault hapart) (endsExplained hbelow (fun hread => ?_) rfl)
      rw [Met, hfault] at hread
      cases hread
    | none =>
      have hbelow : MetBelow image supported addressesApart.rank := MetBelow.next hbelow hfault
      have hattached : ∃ place? r', attach image r = .ok () r' ∧ Attached image rs es place? r' := by
        by_cases hall : AllPlaced image
        · exact attach_of_allPlaced hmarkers hr hfault hapart hall
        · exact attach_of_not_allPlaced hmarkers hr hfault hapart hall
      obtain ⟨place?, r', hattach, hr'⟩ := hattached
      exact .of_ok hattach ⟨hbelow, place?, hr'⟩
  · obtain ⟨fault, hkind, hattach⟩ := attach_of_not_liveApart (r := r) hapart
    exact .of_error hattach (endsExplained hbelow hapart hkind)

/-- A table that has all that it requires, and shows what the symbols state. -/
structure Fulfills (image : Image) (supported : String) (maxDepth : Nat) (t : Table) : Prop where
  met : ∀ q : Requirement, q.Met image supported
  shows : Shows image t
  depth : t.maxDepth = maxDepth

section
variable {place? : Nat → Option Location}

/-- Entries have the addresses of the format strings. -/
theorem Attached.map_index (hr : Attached image rs es place? r) :
    r.entries.map Entry.index = (candidates image.symbols).map ImageSymbol.address := by
  rw [hr.entries, List.map_map]
  exact map_made (fun s e he => (of_entry_eq_ok he).2) hr.collected.made

theorem Attached.mem_entries_iff (hmarkers : MarkersApart image.symbols)
    (hr : Attached image rs es place? r) {e : Entry} :
    e ∈ r.entries ↔ ∃ s ∈ candidates image.symbols, IsEntryOf image s e := by
  have hmade := hr.collected.made
  have hentry {s : ImageSymbol} {e : Entry} (h : entry rs s = .ok e) :
      IsEntryOf image s (e.located place?) :=
    isEntryOf_located hmarkers hr.collected.ranges h (hr.places s.address)
  rw [hr.entries, List.mem_map]
  constructor
  · rintro ⟨first, hfirst, rfl⟩
    obtain ⟨s, hs, hmake⟩ := (mem_made_iff hmade).mp hfirst
    exact ⟨s, hs, hentry hmake⟩
  · rintro ⟨s, hs, he⟩
    obtain ⟨first, hfirst, hmake⟩ := exists_mem_made hmade hs
    exact ⟨first, hfirst, (hentry hmake).unique he⟩

/-- The timestamp format is the symbol that is one. -/
theorem Attached.timestamp_iff (hr : Attached image rs es place? r) {i : Nat} :
    r.timestamp = some i ↔
      ∃ s ∈ candidates image.symbols, isTimestampSymbol s = true ∧ s.address = i := by
  have hmade := hr.collected.made
  have htimestamp : r.timestamp = timestampIndex? es := hr.collected.timestamp
  rw [htimestamp, timestampIndex?_eq_some_iff hr.collected.stamps]
  constructor
  · rintro ⟨e, he, hstamp, rfl⟩
    obtain ⟨s, hs, hmake⟩ := (mem_made_iff hmade).mp he
    exact ⟨s, hs, isTimestamp_of_entry hmake ▸ hstamp, (of_entry_eq_ok hmake).2.symm⟩
  · rintro ⟨s, hs, hstamp, rfl⟩
    obtain ⟨e, he, hmake⟩ := exists_mem_made hmade hs
    exact ⟨e, he, isTimestamp_of_entry hmake ▸ hstamp, (of_entry_eq_ok hmake).2⟩

/-- Finishing goes through the requirement of addresses, and a table shows what the symbols state. -/
theorem finish_decides (hmarkers : MarkersApart image.symbols)
    (hbelow : MetBelow image supported addressesApart.rank) (hr : Attached image rs es place? r)
    (maxDepth : Nat) :
    EndsIn (EndsExplained image supported)
      (fun t _ => Fulfills image supported maxDepth t)
      (Image.finish maxDepth) r := by
  unfold EndsIn Image.finish
  cases ht : Table.ofEntries r.entries (r.version.getD "") r.timestamp maxDepth with
  | error cause =>
    have hstamp : ∀ i, r.timestamp = some i → ∃ e ∈ r.entries, e.index = i := by
      intro i hi
      obtain ⟨s, hs, -, haddress⟩ := hr.timestamp_iff.mp hi
      have hmem : i ∈ r.entries.map Entry.index :=
        hr.map_index ▸ haddress ▸ List.mem_map_of_mem hs
      exact List.mem_map.mp hmem
    refine endsExplained hbelow (fun hapart => ?_) ?_
    · have hnodup : (r.entries.map Entry.index).Nodup := hr.map_index ▸ hapart
      obtain ⟨t, hok⟩ := Table.exists_ofEntries hnodup hstamp
      rw [ht] at hok
      cases hok
    · rcases Table.exists_of_ofEntries_eq_error ht with ⟨_, _, _, rfl⟩ | ⟨i, hi, hnone, -⟩
      · exact rfl
      · obtain ⟨e, he, hindex⟩ := hstamp i hi
        exact absurd hindex (hnone e he)
  | ok t =>
    obtain ⟨hinsert, hversion, hdepth, htimestamp⟩ := Table.parts_of_ofEntries ht
    have hapart : addressesApart.Met image supported := by
      rw [Met, ← hr.map_index]
      exact (EntryMap.nodup_of_insertAll hinsert).1
    refine ⟨fun q => ?_, ⟨?_, ?_, fun e => ?_, fun i => ?_⟩, hdepth⟩
    · exact MetBelow.next hbelow hapart q (by cases q <;> decide)
    · obtain ⟨version, hstated, hstates⟩ := hr.collected.version
      have hstated : r.version = some version := hstated
      rwa [hversion, hstated]
    · have hperm := (Table.perm_of_ofEntries ht).map Entry.index
      rwa [Table.map_index_entries, hr.map_index] at hperm
    · rw [Table.mem_entries_of_ofEntries ht, hr.mem_entries_iff hmarkers]
    · rw [htimestamp, hr.timestamp_iff]

end

/-- A recovery of symbols goes through all requirements. -/
theorem recover_decides (supported : String) (maxDepth : Nat)
    (hlayout : image.symbols.any Image.isFormatSymbol = true) (htags : HasTextTags image.symbols)
    (hmarkers : MarkersApart image.symbols) :
    EndsIn (EndsExplained image supported)
      (fun t _ => Fulfills image supported maxDepth t)
      (image.recover supported maxDepth) Recovery.empty := by
  rw [Image.recover_of_symbols hlayout]
  refine EndsIn.bind (Q := fun _ r => MetBelow image supported locationsApart.rank ∧
    ∃ rs es, Collected image rs es r) ?_ ?_
  · unfold Image.prepare
    refine EndsIn.bind (Q := fun _ r => r.entries = [] ∧ r.timestamp = none) ⟨rfl, rfl⟩ ?_
    rintro _ r ⟨hentries, hstamp⟩
    refine (collect_decides htags hentries hstamp).bind ?_
    rintro _ r ⟨hbelow, rs, es, hr⟩
    obtain ⟨version, hversion, hstates⟩ := hr.version
    refine (checkVersion_decides hbelow hversion hstates).bind ?_
    rintro _ r' ⟨rfl, hbelow⟩
    exact ⟨hbelow, rs, es, hr.version, hr.ranges, hr.made, hr.entries, hr.stamps, hr.timestamp⟩
  · rintro _ r ⟨hbelow, rs, es, hr⟩
    refine (attach_decides hmarkers hbelow hr).bind ?_
    rintro _ r ⟨hbelow, place?, hr⟩
    exact finish_decides hmarkers hbelow hr maxDepth

end

end SymbolLayout

namespace Image

open SymbolLayout

variable {image : Image}

/-- Building a table of symbols goes through all requirements. -/
theorem build_decides (supported : String) (maxDepth : Nat)
    (hlayout : image.symbols.any isFormatSymbol = true) (htags : HasTextTags image.symbols)
    (hmarkers : MarkersApart image.symbols) :
    Gives (EndsExplained image supported)
      (Fulfills image supported maxDepth)
      (image.build supported maxDepth).1 := by
  have hends := recover_decides supported maxDepth hlayout htags hmarkers
  unfold EndsIn at hends
  unfold build
  cases hr : image.recover supported maxDepth Recovery.empty with
  | ok t r =>
    rw [hr] at hends
    exact .ok hends
  | error fault r =>
    rw [hr] at hends
    exact .error hends

theorem kind_of_explains {supported : String} (hsupported : (Version.parse? supported).isSome = true) {q : Requirement}
    {fault : RecoveryFault} (h : q.Explains image supported fault) : fault.kind = q.kind := by
  cases q with
  | versionSupported =>
    obtain ⟨version, cause, -, hcheck, rfl⟩ := h
    obtain ⟨ours, hours⟩ := Option.isSome_iff_exists.mp hsupported
    unfold Version.check at hcheck
    rw [hours] at hcheck
    split at hcheck
    · obtain rfl := Except.error.inj hcheck
      rfl
    · dsimp only at hcheck
      split_ifs at hcheck
      · obtain rfl := Except.error.inj hcheck
        rfl
      · obtain rfl := Except.error.inj hcheck
        rfl
  | _ => exact h

/-- **What a table of symbols requires, and what it shows.** With tags that are texts, markers apart and a
supported version that is one, a table is built just if all requirements are met. It has one entry for each
format string: the one that its name, the markers and the locations state. Otherwise the first requirement
that is not met decides the fault. -/
theorem build_symbols (image : Image) (supported : String) (maxDepth : Nat)
    (hlayout : image.symbols.any isFormatSymbol = true) (htags : HasTextTags image.symbols)
    (hmarkers : MarkersApart image.symbols) (hsupported : (Version.parse? supported).isSome = true) :
    ((∃ t, (image.build supported maxDepth).1 = .ok t) ↔
      ∀ q : Requirement, q.Met image supported) ∧
    (∀ t, (image.build supported maxDepth).1 = .ok t → Shows image t ∧ t.maxDepth = maxDepth) ∧
    ∀ q : Requirement, q.IsFirstUnmet image supported →
      ∃ fault, (image.build supported maxDepth).1 = .error fault ∧ fault.kind = q.kind := by
  have hdecides := build_decides supported maxDepth hlayout htags hmarkers
  generalize (image.build supported maxDepth).1 = outcome at hdecides ⊢
  cases hdecides with
  | ok h =>
    refine ⟨iff_of_true ⟨_, rfl⟩ h.met, fun t ht => ?_, fun q hq => absurd (h.met q) hq.1⟩
    obtain rfl := Except.ok.inj ht
    exact ⟨h.shows, h.depth⟩
  | @error fault h =>
    obtain ⟨p, hp, hexplains⟩ := h
    refine ⟨iff_of_false (fun ⟨t, ht⟩ => (by cases ht)) fun hall => hp.1 (hall p),
      fun t ht => (by cases ht), fun q hq => ⟨fault, rfl, ?_⟩⟩
    rw [hq.unique hp]
    exact kind_of_explains hsupported hexplains

/-- A log statement in the range of a level, a timestamp format, and the place of the former. -/
def rangedSample : Image where
  symbols :=
    [⟨"_defmt_info_end", 3, some symbolSection⟩, ⟨"x=\x7b=u8\x7d", 1, some symbolSection⟩,
      ⟨"\"_defmt_version_ = 0.2.1\"", 0, none⟩,
      ⟨"\x7b\"tag\":\"defmt_timestamp\",\"data\":\"\x7b=u32:us\x7d\"\x7d", 4, some symbolSection⟩,
      ⟨"_defmt_info_start", 1, some symbolSection⟩]
  symbolRecords := []
  sections := []
  locations := [⟨"x=\x7b=u8\x7d", 1, ⟨"app", "/build/main.rs", some (.number 7)⟩⟩]
  locationFault := none
  locationRecords := []

theorem rangedSample_hasTextTags : HasTextTags rangedSample.symbols := by
  have hall : (candidates rangedSample.symbols).all (fun s =>
      (metadata? s.name).all fun m => m.2.1.text?.isSome) = true := by decide +kernel
  intro s hs format tag crate hmeta
  have htext := List.all_eq_true.mp hall s hs
  rw [hmeta] at htext
  cases tag <;> first | exact ⟨_, rfl⟩ | cases htext

theorem rangedSample_markersApart : MarkersApart rangedSample.symbols := by
  have hmarkers : markers rangedSample.symbols = [(.info, .finish, 3), (.info, .start, 1)] := by
    decide +kernel
  have hmarks {level : Level} {edge : Edge} {a : Nat} (h : Marks rangedSample.symbols level edge a) :
      level = .info ∧ (edge = .finish ∧ a = 3 ∨ edge = .start ∧ a = 1) := by
    rw [← mem_markers_iff, hmarkers] at h
    simpa [and_or_left] using h
  refine ⟨fun level edge a a' h h' => ?_, fun level level' a h h' => ?_⟩
  · rcases (hmarks h).2 with ⟨rfl, rfl⟩ | ⟨rfl, rfl⟩ <;> rcases (hmarks h').2 with ⟨hedge, rfl⟩ | ⟨hedge, rfl⟩
    all_goals first | rfl | cases hedge
  · obtain ⟨start, finish, hstart, -⟩ := h
    obtain ⟨start', finish', hstart', -⟩ := h'
    rw [(hmarks hstart).1, (hmarks hstart').1]

theorem exists_rangedSample :
    ∃ t, (rangedSample.build Version.wireFormat Table.defaultMaxDepth).1 = .ok t ∧
      t.entries.map (fun e => (e.index, e.level, e.tag)) =
        [(1, some .info, "defmt_info"), (4, none, "defmt_timestamp")] :=
  exists_of_table? (by decide +kernel)

/-- This image meets all requirements. -/
theorem build_symbols_ranged :
    rangedSample.symbols.any isFormatSymbol = true ∧ HasTextTags rangedSample.symbols ∧
      MarkersApart rangedSample.symbols ∧ (Version.parse? Version.wireFormat).isSome = true ∧
      (∀ q : Requirement, q.Met rangedSample Version.wireFormat) ∧
      ∃ t, (rangedSample.build Version.wireFormat Table.defaultMaxDepth).1 = .ok t ∧
        t.entries.map (fun e => (e.index, e.level, e.tag)) =
          [(1, some .info, "defmt_info"), (4, none, "defmt_timestamp")] ∧
        Shows rangedSample t ∧ t.maxDepth = Table.defaultMaxDepth := by
  have hlayout : rangedSample.symbols.any isFormatSymbol = true := by decide
  have hversion : (Version.parse? Version.wireFormat).isSome = true := by cbv
  obtain ⟨t, ht, hentries⟩ := exists_rangedSample
  obtain ⟨hiff, hshows, -⟩ := build_symbols rangedSample Version.wireFormat Table.defaultMaxDepth hlayout
    rangedSample_hasTextTags rangedSample_markersApart hversion
  exact ⟨hlayout, rangedSample_hasTextTags, rangedSample_markersApart, hversion, hiff.mp ⟨t, ht⟩,
    t, ht, hentries, hshows t ht⟩

end Image

end DeferredLog
