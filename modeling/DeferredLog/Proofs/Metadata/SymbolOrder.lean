import DeferredLog.Proofs.Metadata.SymbolTable

/-!
# The order of symbols does not matter

The requirements of a table, and what it shows, ask which symbols there are, and not in which order. So
they are the same of two images that have the same symbols in another order:

    Reorders image image' → (q.Met image supported ↔ q.Met image' supported)                      (met_iff)
    Reorders image image' → Shows image t → Shows image' t                                  (Shows.reorder)

As these determine whether a table is built, and its entries, the two images give the same table, or faults
of one kind (`build_reordered`). In the record layout symbols play no part at all.
-/

namespace DeferredLog

open Recovering

namespace SymbolLayout

/-! ## Symbols in another order -/

section
variable {symbols symbols' : List ImageSymbol} {level : Level}

theorem formatSymbols_perm (h : symbols.Perm symbols') :
    (formatSymbols symbols).Perm (formatSymbols symbols') := h.filter _

theorem candidates_perm (h : symbols.Perm symbols') :
    (candidates symbols).Perm (candidates symbols') := (formatSymbols_perm h).filter _

theorem statesVersion_iff (h : symbols.Perm symbols') {version : String} :
    StatesVersion symbols version ↔ StatesVersion symbols' version := by
  simp only [StatesVersion, h.mem_iff]

theorem marks_iff (h : symbols.Perm symbols') {edge : Edge} {a : Nat} :
    Marks symbols level edge a ↔ Marks symbols' level edge a := by
  simp only [Marks, (formatSymbols_perm h).mem_iff]

theorem inRange_iff (h : symbols.Perm symbols') {a : Nat} :
    InRange symbols level a ↔ InRange symbols' level a := by
  simp only [InRange, marks_iff h]

theorem hasLevel_iff (h : symbols.Perm symbols') {s : ImageSymbol} :
    HasLevel symbols s level ↔ HasLevel symbols' s level := by
  unfold HasLevel
  split
  · exact Iff.rfl
  · exact inRange_iff h

theorem HasTextTags.perm (h : symbols.Perm symbols') (htags : HasTextTags symbols) :
    HasTextTags symbols' := fun s hs => htags s ((candidates_perm h).mem_iff.mpr hs)

theorem MarkersApart.perm (h : symbols.Perm symbols') (hmarkers : MarkersApart symbols) :
    MarkersApart symbols' where
  once level edge a a' ha ha' :=
    hmarkers.once level edge a a' ((marks_iff h).mpr ha) ((marks_iff h).mpr ha')
  disjoint level level' a ha ha' :=
    hmarkers.disjoint level level' a ((inRange_iff h).mpr ha) ((inRange_iff h).mpr ha')

theorem isLive_iff (h : symbols.Perm symbols') {l : StatementLocation} :
    IsLive symbols l ↔ IsLive symbols' l := by
  simp only [IsLive, h.mem_iff]

end

/-! ## Images -/

/-- An image has the symbols of another, in whatever order, and the same locations. -/
structure Reorders (image image' : Image) : Prop where
  symbols : image.symbols.Perm image'.symbols
  locations : image'.locations = image.locations
  locationFault : image'.locationFault = image.locationFault

section
variable {image image' : Image} {supported : String} {q : Requirement}

theorem Reorders.symm (h : Reorders image image') : Reorders image' image :=
  ⟨h.symbols.symm, h.locations.symm, h.locationFault.symm⟩

theorem liveAt_iff_of_reorders (h : Reorders image image') {a : Nat} {place : Location} :
    image.LiveAt a place ↔ image'.LiveAt a place := by
  simp only [Image.LiveAt, h.locations, isLive_iff h.symbols]

theorem liveApart_iff (h : Reorders image image') : image.LiveApart ↔ image'.LiveApart := by
  simp only [Image.LiveApart, h.locations, isLive_iff h.symbols]

theorem locates_iff (h : Reorders image image') {a : Nat} {place : Location} :
    Locates image a place ↔ Locates image' a place := by
  simp only [Locates, AllPlaced, liveAt_iff_of_reorders h, (candidates_perm h.symbols).mem_iff,
    hasLevel_iff h.symbols]

theorem IsEntryOf.reorder (h : Reorders image image') {s : ImageSymbol} {e : Entry}
    (he : IsEntryOf image s e) : IsEntryOf image' s e where
  index := he.index
  level level := (he.level level).trans (hasLevel_iff h.symbols)
  stated := he.stated
  plain := he.plain
  location place := (he.location place).trans (locates_iff h)

/-- A table that shows what symbols state does so for symbols in any order. -/
theorem Shows.reorder (h : Reorders image image') {t : Table} (ht : Shows image t) :
    Shows image' t where
  version := (statesVersion_iff h.symbols).mp ht.version
  indices := ht.indices.trans ((candidates_perm h.symbols).map _)
  entries e := by
    rw [ht.entries]
    refine exists_congr fun s => and_congr (candidates_perm h.symbols).mem_iff ?_
    exact ⟨IsEntryOf.reorder h, IsEntryOf.reorder h.symm⟩
  timestamp i := by simp only [ht.timestamp, (candidates_perm h.symbols).mem_iff]

/-- A requirement is met by symbols in any order. -/
theorem met_iff (h : Reorders image image') : q.Met image supported ↔ q.Met image' supported := by
  cases q with
  | versionStated => simp only [Requirement.Met, statesVersion_iff h.symbols]
  | versionOnce => simp only [Requirement.Met, statesVersion_iff h.symbols]
  | rangesClosed => simp only [Requirement.Met, RangesClosed, marks_iff h.symbols]
  | timestampOnce => rw [Requirement.Met, Requirement.Met, (candidates_perm h.symbols).countP_eq]
  | versionSupported => simp only [Requirement.Met, statesVersion_iff h.symbols]
  | locationsApart => exact liveApart_iff h
  | locationsRead => rw [Requirement.Met, Requirement.Met, h.locationFault]
  | addressesApart =>
    exact ((candidates_perm h.symbols).map ImageSymbol.address).nodup_iff

theorem isFirstUnmet_iff (h : Reorders image image') :
    q.IsFirstUnmet image supported ↔ q.IsFirstUnmet image' supported := by
  simp only [Requirement.IsFirstUnmet, met_iff h]

/-- What the symbols state makes up the whole table. -/
theorem Shows.unique {t t' : Table} (ht : Shows image t) (ht' : Shows image t')
    (honce : Requirement.versionOnce.Met image supported) :
    t'.version = t.version ∧ t'.timestamp = t.timestamp ∧ t'.entries = t.entries := by
  refine ⟨honce _ _ ht'.version ht.version, Option.ext fun i => ?_, ?_⟩
  · rw [ht'.timestamp, ht.timestamp]
  · refine Table.entries_eq_of_mem_iff (fun e => ?_) t.entries_increasing
    rw [ht'.entries, ht.entries]

/-- Faults for one requirement are of one kind, in whatever order the symbols are. -/
theorem kind_eq_of_explains (h : Reorders image image') (hq : q.IsFirstUnmet image supported)
    {fault fault' : RecoveryFault} (hfault : q.Explains image supported fault)
    (hfault' : q.Explains image' supported fault') : fault'.kind = fault.kind := by
  cases q with
  | versionSupported =>
    obtain ⟨version, cause, hstates, hcheck, rfl⟩ := hfault
    obtain ⟨version', cause', hstates', hcheck', rfl⟩ := hfault'
    have honce : Requirement.versionOnce.Met image supported := hq.2 .versionOnce (by decide)
    obtain rfl := honce version version' hstates ((statesVersion_iff h.symbols).mpr hstates')
    rw [Except.error.inj (hcheck.symm.trans hcheck')]
  | _ => exact hfault'.trans hfault.symm

/-- If one of two outcomes is a table, the other is the same one. -/
theorem exists_table_of_fulfills (h : Reorders image image') {maxDepth : Nat} {t : Table}
    (ht : Fulfills image supported maxDepth t) {outcome : Except RecoveryFault Table}
    (hother : Gives (EndsExplained image' supported) (Fulfills image' supported maxDepth) outcome) :
    ∃ t', outcome = .ok t' ∧ t'.version = t.version ∧ t'.maxDepth = t.maxDepth ∧
      t'.timestamp = t.timestamp ∧ t'.entries = t.entries ∧ ∀ i, t'.entry? i = t.entry? i := by
  cases hother with
  | @ok t' ht' =>
    obtain ⟨hversion, hstamp, hentries⟩ :=
      ht.shows.unique (ht'.shows.reorder h.symm) (ht.met .versionOnce)
    exact ⟨t', rfl, hversion, ht'.depth.trans ht.depth.symm, hstamp, hentries,
      Table.entry?_congr hentries⟩
  | error hfault =>
    obtain ⟨q, hq, -⟩ := hfault
    exact absurd ((met_iff h).mp (ht.met q)) hq.1

/-- If one of two outcomes is a fault, the other is one of the same kind. -/
theorem exists_fault_of_explained (h : Reorders image image') {maxDepth : Nat} {fault : RecoveryFault}
    (hfault : EndsExplained image supported fault) {outcome : Except RecoveryFault Table}
    (hother : Gives (EndsExplained image' supported) (Fulfills image' supported maxDepth) outcome) :
    ∃ fault', outcome = .error fault' ∧ fault'.kind = fault.kind := by
  obtain ⟨q, hq, hexplains⟩ := hfault
  cases hother with
  | ok ht' => exact absurd ((met_iff h).mpr (ht'.met q)) hq.1
  | @error fault' hfault' =>
    obtain ⟨q', hq', hexplains'⟩ := hfault'
    obtain rfl := hq.unique ((isFirstUnmet_iff h).mpr hq')
    exact ⟨fault', rfl, kind_eq_of_explains h hq hexplains hexplains'⟩

end

end SymbolLayout

namespace Image

open SymbolLayout

/-- **The order of symbols does not matter.** With tags that are texts and markers apart, an image with
its symbols in another order gives a table of the same version and entries, and with the same timestamp
format, or no table for a fault of the same kind. -/
theorem build_reordered (image : Image) (symbols : List ImageSymbol) (supported : String) (maxDepth : Nat)
    (hperm : image.symbols.Perm symbols) (htags : HasTextTags image.symbols)
    (hmarkers : MarkersApart image.symbols) :
    (∀ t, (image.build supported maxDepth).1 = .ok t →
      ∃ t', ({ image with symbols }.build supported maxDepth).1 = .ok t' ∧
        t'.version = t.version ∧ t'.maxDepth = t.maxDepth ∧ t'.timestamp = t.timestamp ∧
        t'.entries = t.entries ∧ ∀ i, t'.entry? i = t.entry? i) ∧
    ∀ fault, (image.build supported maxDepth).1 = .error fault →
      ∃ fault', ({ image with symbols }.build supported maxDepth).1 = .error fault' ∧
        fault'.kind = fault.kind := by
  have h : Reorders image { image with symbols } := ⟨hperm, rfl, rfl⟩
  cases hlayout : image.symbols.any isFormatSymbol with
  | false =>
    -- Symbols are only asked for the layout, so the two recoveries are one.
    have hlayout' : symbols.any isFormatSymbol = false := hperm.any_eq ▸ hlayout
    have hsame : { image with symbols }.build supported maxDepth = image.build supported maxDepth := by
      unfold build recover
      rw [hlayout, hlayout']
      rfl
    rw [hsame]
    exact ⟨fun t ht => ⟨t, ht, rfl, rfl, rfl, rfl, fun _ => rfl⟩, fun fault hfault => ⟨fault, hfault, rfl⟩⟩
  | true =>
    have hlayout' : ({ image with symbols } : Image).symbols.any isFormatSymbol = true :=
      hperm.any_eq ▸ hlayout
    have hfirst := build_decides supported maxDepth hlayout htags hmarkers
    have hsecond := build_decides supported maxDepth hlayout' (htags.perm hperm) (hmarkers.perm hperm)
    refine ⟨fun t ht => ?_, fun fault hfault => ?_⟩
    · rw [ht, gives_ok_iff] at hfirst
      exact exists_table_of_fulfills h hfirst hsecond
    · rw [hfault, gives_error_iff] at hfirst
      exact exists_fault_of_explained h hfirst hsecond

/-- Markers may come before what they mark, or behind it. -/
theorem build_reordered_ranged :
    rangedSample.symbols.Perm rangedSample.symbols.reverse ∧ HasTextTags rangedSample.symbols ∧
      MarkersApart rangedSample.symbols ∧
      ∃ t t', (rangedSample.build Version.wireFormat Table.defaultMaxDepth).1 = .ok t ∧
        ({ rangedSample with symbols := rangedSample.symbols.reverse }.build Version.wireFormat
          Table.defaultMaxDepth).1 = .ok t' ∧
        t.entries.map (fun e => (e.index, e.level, e.tag)) =
          [(1, some .info, "defmt_info"), (4, none, "defmt_timestamp")] ∧
        t'.timestamp = t.timestamp ∧ t'.entries = t.entries := by
  have hperm : rangedSample.symbols.Perm rangedSample.symbols.reverse :=
    (List.reverse_perm rangedSample.symbols).symm
  obtain ⟨t, ht, hentries⟩ := exists_rangedSample
  obtain ⟨hok, -⟩ := build_reordered rangedSample rangedSample.symbols.reverse Version.wireFormat
    Table.defaultMaxDepth hperm rangedSample_hasTextTags rangedSample_markersApart
  obtain ⟨t', ht', -, -, hstamp, hsame, -⟩ := hok t ht
  exact ⟨hperm, rangedSample_hasTextTags, rangedSample_markersApart, t, t', ht, ht', hentries, hstamp, hsame⟩

end Image

end DeferredLog
