import DeferredLog.Proofs.Dwarf.Variables
import DeferredLog.Proofs.Metadata.Discipline
import DeferredLog.Proofs.Text.Utf8

/-!
# Locations reach their log statements

Symbols say which statements the linker has kept, debug information says where each statement stands. The
two are joined by name and by address, after everything else has been recovered:

    (image.reporting units).recover = (do prepare image; attach (image.reporting units); finish)
                                                                                      (recover_reporting)

If the units describe every log statement and their names can be cut at the first mark (`PlainNames`), then
each log statement gets the place that its own variable states, and nothing else changes
(`build_of_readable`, `build_reporting`). Names with more marks are cut too early. Such a statement misses its variable, and as
locations are attached to all log statements or to none, every other one loses its location with it
(`build_of_missing`, `build_of_marked`).
-/

namespace DeferredLog

open Recovering

/-- An entry at the place that its index has. -/
def Entry.located (place? : Nat → Option Location) (e : Entry) : Entry :=
  { e with location := place? e.index }

namespace SymbolLayout

variable {found : List StatementLocation} {known : Std.TreeMap Nat Location}

/-- Locations at distinct addresses are known by their addresses. -/
theorem exists_byAddress (hnew : ∀ l ∈ found, known[l.address]? = none)
    (hdistinct : found.Pairwise fun l l' => l.address ≠ l'.address) :
    ∃ known', byAddress found known = .ok known' ∧
      ∀ (a : Nat) (place : Location), known'[a]? = some place ↔
        known[a]? = some place ∨ ∃ l ∈ found, l.address = a ∧ l.location = place := by
  induction found generalizing known with
  | nil => exact ⟨known, rfl, by simp⟩
  | cons l ls ih =>
    obtain ⟨hl, hls⟩ := List.pairwise_cons.mp hdistinct
    have hinsert (a : Nat) : (known.insert l.address l.location)[a]? =
        if l.address = a then some l.location else known[a]? := by
      rw [Std.TreeMap.getElem?_insert]
      simp only [Std.LawfulEqCmp.compare_eq_iff_eq]
    have hrest : ∀ l' ∈ ls, (known.insert l.address l.location)[l'.address]? = none := by
      intro l' hl'
      rw [hinsert, if_neg (hl l' hl')]
      exact hnew l' (List.mem_cons_of_mem _ hl')
    obtain ⟨known', hknown', hiff⟩ := ih hrest hls
    refine ⟨known', ?_, fun a place => ?_⟩
    · rw [byAddress, hnew l List.mem_cons_self]
      exact hknown'
    · rw [hiff, hinsert]
      by_cases ha : l.address = a
      · subst ha
        rw [if_pos rfl, hnew l List.mem_cons_self]
        constructor
        · rintro (hplace | ⟨l', hl', haddress, hplace⟩)
          · exact .inr ⟨l, List.mem_cons_self, rfl, Option.some.inj hplace⟩
          · exact .inr ⟨l', List.mem_cons_of_mem _ hl', haddress, hplace⟩
        · rintro (hnone | ⟨l', hl', haddress, hplace⟩)
          · cases hnone
          · rcases List.mem_cons.mp hl' with rfl | hl'
            · exact .inl (congrArg some hplace)
            · exact .inr ⟨l', hl', haddress, hplace⟩
      · rw [if_neg ha]
        refine or_congr_right ⟨?_, ?_⟩
        · rintro ⟨l', hl', haddress, hplace⟩
          exact ⟨l', List.mem_cons_of_mem _ hl', haddress, hplace⟩
        · rintro ⟨l', hl', haddress, hplace⟩
          rcases List.mem_cons.mp hl' with rfl | hl'
          · exact absurd haddress ha
          · exact ⟨l', hl', haddress, hplace⟩

/-- The entry of a symbol has its address for an index, and no location yet. -/
theorem of_entry_eq_ok {rs : List LevelRange} {s : ImageSymbol} {e : Entry} (h : entry rs s = .ok e) :
    e.location = none ∧ e.index = s.address := by
  unfold entry at h
  split at h
  · obtain rfl := Except.ok.inj h
    exact ⟨rfl, rfl⟩
  · cases h
  · obtain rfl := Except.ok.inj h
    exact ⟨rfl, rfl⟩

/-- A location belongs to a statement that the linker has kept. -/
def IsLive (symbols : List ImageSymbol) (l : StatementLocation) : Prop :=
  ∃ s ∈ symbols, Image.isFormatSymbol s = true ∧ s.name = l.linkageName

theorem contains_names_iff {symbols : List ImageSymbol} {l : StatementLocation} :
    ((symbols.filter Image.isFormatSymbol).map ImageSymbol.name).contains l.linkageName = true ↔
      IsLive symbols l := by
  rw [List.contains_iff_mem, List.mem_map, IsLive]
  refine exists_congr fun s => ?_
  rw [List.mem_filter, and_assoc]

theorem mem_liveLocations {symbols : List ImageSymbol} {found : List StatementLocation}
    {l : StatementLocation} : l ∈ liveLocations symbols found ↔ l ∈ found ∧ IsLive symbols l := by
  rw [liveLocations, List.mem_filter, contains_names_iff]

end SymbolLayout

/-- An image has a live location for an address. -/
def Image.LiveAt (image : Image) (address : Nat) (place : Location) : Prop :=
  ∃ l ∈ image.locations, SymbolLayout.IsLive image.symbols l ∧ l.address = address ∧ l.location = place

/-- No two live locations of an image are for one address. -/
def Image.LiveApart (image : Image) : Prop :=
  image.locations.Pairwise fun l l' =>
    SymbolLayout.IsLive image.symbols l → SymbolLayout.IsLive image.symbols l' → l.address ≠ l'.address

namespace SymbolLayout

section
variable {image : Image} {r : Recovery}

theorem liveAt_iff {address : Nat} {place : Location} :
    (∃ l ∈ liveLocations image.symbols image.locations, l.address = address ∧ l.location = place) ↔
      image.LiveAt address place := by
  simp only [mem_liveLocations, Image.LiveAt, and_assoc]

theorem pairwise_liveLocations_iff :
    (liveLocations image.symbols image.locations).Pairwise (fun l l' => l.address ≠ l'.address) ↔
      image.LiveApart := by
  rw [liveLocations, List.pairwise_filter]
  simp only [contains_names_iff, Image.LiveApart]

/-- Live locations apart are known by their addresses. -/
theorem exists_byAddress_live (hapart : image.LiveApart) :
    ∃ known, byAddress (liveLocations image.symbols image.locations) {} = .ok known ∧
      ∀ (a : Nat) (place : Location), known[a]? = some place ↔ image.LiveAt a place := by
  have hnew : ∀ l ∈ liveLocations image.symbols image.locations,
      ({} : Std.TreeMap Nat Location)[l.address]? = none := by simp
  obtain ⟨known, hknown, hiff⟩ := exists_byAddress hnew (pairwise_liveLocations_iff.mpr hapart)
  refine ⟨known, hknown, fun a place => ?_⟩
  rw [hiff, liveAt_iff]
  simp

/-- The locations of an image by address, if no two statements share one. -/
theorem exists_knownLocations (hfault : image.locationFault = none) (hapart : image.LiveApart) :
    ∃ known, knownLocations image = .ok known ∧
      ∀ (a : Nat) (place : Location), known[a]? = some place ↔ image.LiveAt a place := by
  obtain ⟨known, hknown, hiff⟩ := exists_byAddress_live hapart
  exact ⟨known, by rw [knownLocations, hknown, hfault], hiff⟩

/-- A fault that ended the reading of locations is raised. -/
theorem attach_of_fault {fault : Dwarf.PathFault} (hfault : image.locationFault = some fault)
    (hapart : image.LiveApart) : attach image r = .error (.location fault) r := by
  obtain ⟨known, hknown, -⟩ := exists_byAddress_live hapart
  rw [attach, knownLocations, hknown, hfault]

theorem isComplete_iff {known : Std.TreeMap Nat Location} {es : List Entry} :
    isComplete known es = true ↔
      ∀ e ∈ es, e.level.isSome = true → known[e.index]?.isSome = true := by
  rw [isComplete, List.all_eq_true]
  refine forall₂_congr fun e _ => ?_
  rw [Bool.or_eq_true, ← Std.TreeMap.isSome_getElem?_eq_contains]
  cases e.level <;> simp

/-- If every log statement has a location, the entries get theirs. -/
theorem attach_of_complete (hfault : image.locationFault = none) (hapart : image.LiveApart)
    (hcomplete : ∀ e ∈ r.entries, e.level.isSome = true → ∃ place, image.LiveAt e.index place)
    (hnone : ∀ e ∈ r.entries, e.location = none) :
    ∃ place? : Nat → Option Location,
      (∀ a place, place? a = some place ↔ image.LiveAt a place) ∧
      attach image r = .ok () { r with entries := r.entries.map (Entry.located place?) } := by
  obtain ⟨known, hknown, hiff⟩ := exists_knownLocations hfault hapart
  refine ⟨fun a => known[a]?, hiff, ?_⟩
  have hfull : isComplete known r.entries = true := by
    refine isComplete_iff.mpr fun e he hlevel => ?_
    obtain ⟨place, hplace⟩ := hcomplete e he hlevel
    exact Option.isSome_iff_exists.mpr ⟨place, (hiff _ _).mpr hplace⟩
  unfold attach
  rw [hknown]
  dsimp only
  by_cases hempty : known.isEmpty = true
  · have hsame : r.entries.map (Entry.located fun a => known[a]?) = r.entries := by
      have hself (e : Entry) (he : e ∈ r.entries) : e.located (fun a => known[a]?) = e := by
        have hunknown : known[e.index]? = none := Std.TreeMap.getElem?_of_isEmpty hempty
        rw [Entry.located, hunknown, ← hnone e he]
      rw [List.map_congr_left hself, List.map_id']
    rw [if_pos hempty, hsame]
  · rw [if_neg hempty, if_pos hfull]
    rfl

/-- If a log statement has none, no entry gets one. -/
theorem attach_of_missing (hfault : image.locationFault = none) (hapart : image.LiveApart)
    {e : Entry} (he : e ∈ r.entries) (hlevel : e.level.isSome = true)
    (hmissing : ∀ place, ¬ image.LiveAt e.index place) :
    ∃ records, attach image r = .ok () { r with records } := by
  obtain ⟨known, hknown, hiff⟩ := exists_knownLocations hfault hapart
  have hpartial : ¬ isComplete known r.entries = true := by
    intro hfull
    obtain ⟨place, hplace⟩ := Option.isSome_iff_exists.mp (isComplete_iff.mp hfull e he hlevel)
    exact hmissing place ((hiff _ _).mp hplace)
  unfold attach
  rw [hknown]
  dsimp only
  by_cases hempty : known.isEmpty = true
  · rw [if_pos hempty]
    exact ⟨r.records, rfl⟩
  · rw [if_neg hempty, if_neg hpartial]
    exact ⟨_, rfl⟩

end

end SymbolLayout

namespace Image

open Dwarf

/-! ## What an image tells about its statements -/

/-- The image with other debug information. -/
def reporting (image : Image) (units : List CompileUnit) : Image :=
  { image with
    locations := (untilFault (units.flatMap (·.statements statementVariable))).1
    locationFault := (untilFault (units.flatMap (·.statements statementVariable))).2 }

/-- The image of a file reports the units of the file. -/
theorem ofFile_eq_reporting (f : Elf.File) (tag : String) :
    ofFile f tag statementVariable = (ofFile f tag statementVariable).reporting (debugParts f).units :=
  rfl

/-- A symbol that is a log statement: its entry has a level. -/
def IsLogStatement (image : Image) (s : ImageSymbol) : Prop :=
  s ∈ SymbolLayout.candidates image.symbols ∧ ∃ rs e,
    SymbolLayout.ranges (SymbolLayout.edges image.symbols) = .ok rs ∧
      SymbolLayout.entry rs s = .ok e ∧ e.level.isSome = true

/-- A variable belongs to a statement that the linker has kept. -/
def Keeps (image : Image) (v : Variable) : Prop :=
  ∃ s ∈ image.symbols, isFormatSymbol s = true ∧ v.IsOf s.name

/-- Units describe every log statement, and no two kept ones at the same address. -/
structure Describes (image : Image) (units : List CompileUnit) : Prop where
  described : ∀ s, image.IsLogStatement s → ∃ u ∈ units, ∃ x ∈ u.entries, ∃ v,
    u.Describes x v ∧ v.IsOf s.name ∧ v.address = s.address
  distinct : (entriesOf units).Pairwise fun p q => ∀ v w, p.1.Describes p.2 v → q.1.Describes q.2 w →
    image.Keeps v → image.Keeps w → v.address ≠ w.address

/-- Names that can be cut at their first mark: no kept statement that has a variable holds a mark itself, and
no linkage name that continues the name of a kept statement behind a mark holds another one. -/
structure PlainNames (image : Image) (units : List CompileUnit) : Prop where
  own : ∀ u ∈ units, ∀ x ∈ u.entries, ∀ v, u.Describes x v → ∀ s ∈ image.symbols,
    isFormatSymbol s = true → v.IsOf s.name → disambiguatorMark ∉ s.name.toList
  rest : ∀ u ∈ units, ∀ x ∈ u.entries, ∀ v, u.Describes x v → ∀ s ∈ image.symbols,
    isFormatSymbol s = true → ∀ rest : String, v.linkageName = s.name ++ "@" ++ rest →
      disambiguatorMark ∉ rest.toList

variable {image : Image} {units : List CompileUnit} {supported : String} {maxDepth : Nat} {r : Recovery}

theorem mem_entriesOf {u : CompileUnit} {x : NestedEntry} :
    (u, x) ∈ entriesOf units ↔ u ∈ units ∧ x ∈ u.entries := by
  simp only [entriesOf, List.mem_flatMap, List.mem_map, Prod.mk.injEq]
  constructor
  · rintro ⟨u', hu, x', hx, rfl, rfl⟩
    exact ⟨hu, hx⟩
  · rintro ⟨hu, hx⟩
    exact ⟨u, hu, x, hx, rfl, rfl⟩

theorem locations_reporting (h : (image.reporting units).locationFault = none) :
    (image.reporting units).locations = (entriesOf units).filterMap located? :=
  (untilFault_eq h).trans (filterMap_toOption_statements units)

theorem isLive_iff (hnames : image.PlainNames units) {u : CompileUnit} (hu : u ∈ units)
    {x : NestedEntry} (hx : x ∈ u.entries) {v : Variable} (hv : u.Describes x v) :
    SymbolLayout.IsLive image.symbols v.noted ↔ image.Keeps v := by
  refine exists_congr fun s => and_congr_right fun hs => and_congr_right fun hsection => ?_
  rw [← symbolName_eq_iff (hnames.own u hu x hx v hv s hs hsection)
    (hnames.rest u hu x hx v hv s hs hsection), eq_comm]
  rfl

/-- A location is found in the entry of a unit that describes its variable. -/
theorem mem_locations_reporting (h : (image.reporting units).locationFault = none)
    {l : StatementLocation} : l ∈ (image.reporting units).locations ↔
      ∃ u ∈ units, ∃ x ∈ u.entries, ∃ v, u.Describes x v ∧ l = v.noted := by
  rw [locations_reporting h, List.mem_filterMap]
  constructor
  · rintro ⟨⟨u, x⟩, hmem, hfound⟩
    obtain ⟨hu, hx⟩ := mem_entriesOf.mp hmem
    exact ⟨u, hu, x, hx, located?_eq_some_iff.mp hfound⟩
  · rintro ⟨u, hu, x, hx, hdescribed⟩
    exact ⟨(u, x), mem_entriesOf.mpr ⟨hu, hx⟩, located?_eq_some_iff.mpr hdescribed⟩

/-- The live locations are at addresses apart. -/
theorem Describes.liveApart (h : image.Describes units) (hnames : image.PlainNames units) :
    (image.reporting units).LiveApart := by
  have hfound : (image.reporting units).locations.Sublist ((entriesOf units).filterMap located?) :=
    filterMap_toOption_statements units ▸ untilFault_sublist _
  refine List.Pairwise.sublist hfound ?_
  rw [List.pairwise_filterMap]
  refine h.distinct.imp_of_mem ?_
  rintro ⟨u, x⟩ ⟨u', x'⟩ hp hq hne l hl l' hl' hlive hlive'
  obtain ⟨hu, hx⟩ := mem_entriesOf.mp hp
  obtain ⟨hu', hx'⟩ := mem_entriesOf.mp hq
  obtain ⟨v, hv, rfl⟩ := located?_eq_some_iff.mp hl
  obtain ⟨w, hw, rfl⟩ := located?_eq_some_iff.mp hl'
  exact hne v w hv hw ((isLive_iff hnames hu hx hv).mp hlive)
    ((isLive_iff hnames hu' hx' hw).mp hlive')

/-! ## Before the locations -/

/-- What is recovered before locations are looked at. -/
def prepare (image : Image) (supported : String) : Recovering Unit := do
  report image.symbolRecords
  SymbolLayout.collect image.symbols
  checkVersion supported
  report image.locationRecords

theorem recover_of_symbols (hlayout : image.symbols.any isFormatSymbol = true) :
    image.recover supported maxDepth = (do
      image.prepare supported
      SymbolLayout.attach image
      finish maxDepth) := by
  unfold recover prepare
  simp only [hlayout, if_true, bind_assoc]

/-- Debug information is looked at last. -/
theorem recover_reporting (hlayout : image.symbols.any isFormatSymbol = true)
    (units : List CompileUnit) :
    (image.reporting units).recover supported maxDepth = (do
      image.prepare supported
      SymbolLayout.attach (image.reporting units)
      finish maxDepth) :=
  recover_of_symbols hlayout

/-- An entry of a symbol is not placed yet, and has a level only if the symbol is a log statement. -/
def IsOfSymbol (image : Image) (e : Entry) : Prop :=
  e.location = none ∧
    (e.level.isSome = true → ∃ s, image.IsLogStatement s ∧ s.address = e.index)

theorem checkVersion_keeps {Q : Recovery → Prop} (hr : Q r) :
    EndsIn (fun _ => True) (fun _ r' => Q r') (checkVersion supported) r := by
  unfold EndsIn checkVersion
  cases r.version with
  | none => exact trivial
  | some marker =>
    dsimp only
    cases Version.check marker supported with
    | error cause => exact trivial
    | ok v => exact hr

theorem prepare_ends (image : Image) (supported : String) :
    EndsIn (fun _ => True) (fun _ r => r.Sound image.IsOfSymbol) (image.prepare supported)
      Recovery.empty := by
  have hempty : Recovery.empty.Sound image.IsOfSymbol :=
    ⟨by simp [Recovery.empty], by simp [Recovery.empty]⟩
  unfold prepare
  refine (report_ends hempty _).bind fun _ r hr => ?_
  refine (SymbolLayout.collect_ends (fun _ _ => trivial) (fun rs hrs s hs => ?_) hr).bind
    fun _ r hr => ?_
  · cases he : SymbolLayout.entry rs s with
    | error fault => exact .error trivial
    | ok e =>
      obtain ⟨hplace, hindex⟩ := SymbolLayout.of_entry_eq_ok he
      exact .ok ⟨hplace, fun hlevel => ⟨s, ⟨hs, rs, e, hrs, he, hlevel⟩, hindex.symm⟩⟩
  · exact (checkVersion_keeps hr).bind fun _ r hr => report_ends hr _

/-- Every log statement is among what has been recovered. -/
def Covers (image : Image) (r : Recovery) : Prop :=
  ∀ s, image.IsLogStatement s → ∃ e ∈ r.entries, e.index = s.address ∧ e.level.isSome = true

theorem collect_covers (image : Image) (r : Recovery) :
    EndsIn (fun _ => True) (fun _ r' => image.Covers r') (SymbolLayout.collect image.symbols) r := by
  unfold SymbolLayout.collect
  split
  · exact .fail trivial
  · refine EndsIn.bind (Q := fun _ _ => True) trivial fun _ r' _ => ?_
    cases hrs : SymbolLayout.ranges (SymbolLayout.edges image.symbols) with
    | error fault => exact .fail trivial
    | ok rs =>
      refine (addEach_adds _ _ r').imp fun _ r'' hr'' => ?_
      rintro s ⟨hs, rs', e', hrs', he', hlevel⟩
      obtain ⟨e, he, hmake⟩ := hr''.2 s hs
      obtain rfl := Except.ok.inj (hrs.symm.trans hrs')
      obtain rfl := Except.ok.inj (hmake.symm.trans he')
      exact ⟨e, he, (SymbolLayout.of_entry_eq_ok hmake).2, hlevel⟩
  · exact .fail trivial

theorem prepare_covers (image : Image) (supported : String) :
    EndsIn (fun _ => True) (fun _ r => image.Covers r) (image.prepare supported) Recovery.empty := by
  unfold prepare
  refine EndsIn.bind (Q := fun _ _ => True) trivial fun _ r _ => ?_
  refine (image.collect_covers r).bind fun _ r hr => ?_
  refine (checkVersion_keeps hr).bind fun _ r hr => ?_
  exact hr

/-! ## Building -/

/-- The table or the fault that a recovery comes to, once its entries have been given their locations. -/
def tableOf (r : Recovery) (maxDepth : Nat) : Except RecoveryFault Table :=
  match Table.ofEntries r.entries (r.version.getD "") r.timestamp maxDepth with
  | .ok t => .ok t
  | .error cause => .error (.table cause)

/-- Locations do not matter for whether there is a table. -/
theorem tableOf_located (r : Recovery) (maxDepth : Nat) (place? : Nat → Option Location) :
    (∀ fault, tableOf r maxDepth = .error fault →
      tableOf { r with entries := r.entries.map (Entry.located place?) } maxDepth = .error fault) ∧
    ∀ t, tableOf r maxDepth = .ok t →
      ∃ t', tableOf { r with entries := r.entries.map (Entry.located place?) } maxDepth = .ok t' ∧
        t'.version = t.version ∧ t'.maxDepth = t.maxDepth ∧ t'.timestamp = t.timestamp ∧
        t'.entries = t.entries.map (Entry.located place?) ∧ ∀ e ∈ t.entries, e ∈ r.entries := by
  obtain ⟨hok, herror⟩ := Table.ofEntries_map (f := Entry.located place?) (fun _ => rfl) (fun _ => rfl)
    r.entries (r.version.getD "") r.timestamp maxDepth
  unfold tableOf
  dsimp only
  cases ht : Table.ofEntries r.entries (r.version.getD "") r.timestamp maxDepth with
  | error cause =>
    rw [herror cause ht]
    exact ⟨fun _ h => h, fun t h => (by cases h)⟩
  | ok t =>
    obtain ⟨t', ht', hentries⟩ := hok t ht
    obtain ⟨-, hversion, hdepth, hstamp⟩ := Table.parts_of_ofEntries ht
    obtain ⟨-, hversion', hdepth', hstamp'⟩ := Table.parts_of_ofEntries ht'
    rw [ht']
    refine ⟨fun fault h => (by cases h), fun t₁ h => ?_⟩
    obtain rfl := Except.ok.inj h
    exact ⟨t', rfl, hversion'.trans hversion.symm, hdepth'.trans hdepth.symm,
      hstamp'.trans hstamp.symm, hentries, fun e he => (Table.mem_entries_of_ofEntries ht e).mp he⟩

theorem build_of_prepare_error (hlayout : image.symbols.any isFormatSymbol = true)
    {fault : RecoveryFault} (h : image.prepare supported Recovery.empty = .error fault r)
    (units : List CompileUnit) :
    ((image.reporting units).build supported maxDepth).1 = .error fault := by
  have hrecover : (image.reporting units).recover supported maxDepth Recovery.empty =
      .error fault r := by
    rw [recover_reporting hlayout]
    exact bind_eq_of_error h
  rw [build, hrecover]

theorem build_of_attach {r' : Recovery} (hlayout : image.symbols.any isFormatSymbol = true)
    (h : image.prepare supported Recovery.empty = .ok () r)
    (hattach : SymbolLayout.attach (image.reporting units) r = .ok () r') :
    ((image.reporting units).build supported maxDepth).1 = tableOf r' maxDepth := by
  have hrecover : (image.reporting units).recover supported maxDepth Recovery.empty =
      finish maxDepth r' := by
    rw [recover_reporting hlayout]
    exact (bind_eq_of_ok h).trans (bind_eq_of_ok hattach)
  rw [build, hrecover, tableOf, finish]
  cases Table.ofEntries r'.entries (r'.version.getD "") r'.timestamp maxDepth <;> rfl

/-- Without debug information there is nothing to attach. -/
theorem attach_reporting_nil (image : Image) (r : Recovery) :
    SymbolLayout.attach (image.reporting []) r = .ok () r := rfl

/-- A variable of a kept statement states the place for an address. -/
def Places (image : Image) (units : List CompileUnit) (address : Nat) (place : Location) : Prop :=
  ∃ u ∈ units, ∃ x ∈ u.entries, ∃ v, u.Describes x v ∧ image.Keeps v ∧ v.address = address ∧
    v.location = place

theorem places_iff (hread : (image.reporting units).locationFault = none)
    (hnames : image.PlainNames units) {address : Nat} {place : Location} :
    (image.reporting units).LiveAt address place ↔ image.Places units address place := by
  constructor
  · rintro ⟨l, hl, hlive, haddress, hplace⟩
    obtain ⟨u, hu, x, hx, v, hv, rfl⟩ := (mem_locations_reporting hread).mp hl
    exact ⟨u, hu, x, hx, v, hv, (isLive_iff hnames hu hx hv).mp hlive, haddress, hplace⟩
  · rintro ⟨u, hu, x, hx, v, hv, hkeeps, haddress, hplace⟩
    exact ⟨v.noted, (mem_locations_reporting hread).mpr ⟨u, hu, x, hx, v, hv, rfl⟩,
      (isLive_iff hnames hu hx hv).mpr hkeeps, haddress, hplace⟩

/-- A log statement has a place. -/
theorem Describes.exists_places (h : image.Describes units) {s : ImageSymbol}
    (hs : image.IsLogStatement s) : ∃ place, image.Places units s.address place := by
  obtain ⟨u, hu, x, hx, v, hv, hname, haddress⟩ := h.described s hs
  obtain ⟨hmem, hformat⟩ := List.mem_filter.mp (List.mem_filter.mp hs.1).1
  have hsection : isFormatSymbol s = true := by
    rw [Bool.and_eq_true, Bool.and_eq_true] at hformat
    exact hformat.1.2
  exact ⟨v.location, u, hu, x, hx, v, hv, ⟨s, hmem, hsection, hname⟩, haddress, rfl⟩

/-- The entries of described statements all get the places that their variables state. -/
theorem attach_of_describes (hread : (image.reporting units).locationFault = none)
    (h : image.Describes units) (hnames : image.PlainNames units) (hr : r.Sound image.IsOfSymbol) :
    ∃ place? : Nat → Option Location,
      (∀ a place, place? a = some place ↔ image.Places units a place) ∧
      SymbolLayout.attach (image.reporting units) r =
        .ok () { r with entries := r.entries.map (Entry.located place?) } := by
  have hcomplete : ∀ e ∈ r.entries, e.level.isSome = true →
      ∃ place, (image.reporting units).LiveAt e.index place := by
    intro e he hlevel
    obtain ⟨s, hs, hindex⟩ := (hr.entries e he).2 hlevel
    obtain ⟨place, hplace⟩ := h.exists_places hs
    exact ⟨place, hindex ▸ (places_iff hread hnames).mpr hplace⟩
  obtain ⟨place?, hiff, hattach⟩ := SymbolLayout.attach_of_complete hread (h.liveApart hnames)
    hcomplete fun e he => (hr.entries e he).1
  exact ⟨place?, fun a place => (hiff a place).trans (places_iff hread hnames), hattach⟩

theorem readable_restrict (h : (image.reporting units).locationFault = none)
    (keep : CompileUnit → NestedEntry → Bool) :
    (image.reporting (units.map (·.restrict keep))).locationFault = none := by
  refine untilFault_snd_eq_none_iff.mpr fun fault hfault => ?_
  obtain ⟨u', hu', hmem⟩ := List.mem_flatMap.mp hfault
  obtain ⟨u, hu, rfl⟩ := List.mem_map.mp hu'
  exact untilFault_snd_eq_none_iff.mp h fault
    (List.mem_flatMap.mpr ⟨u, hu, mem_statements_of_restrict hmem⟩)

/-- Leaving out what describes no kept statement leaves the live locations as they are. -/
theorem liveLocations_restrict (h : (image.reporting units).locationFault = none)
    (hnames : image.PlainNames units) {keep : CompileUnit → NestedEntry → Bool}
    (hkeep : ∀ u ∈ units, ∀ x ∈ u.entries, ∀ v, u.Describes x v → image.Keeps v → keep u x = true) :
    SymbolLayout.liveLocations image.symbols
        (image.reporting (units.map (·.restrict keep))).locations =
      SymbolLayout.liveLocations image.symbols (image.reporting units).locations := by
  rw [locations_reporting h, locations_reporting (readable_restrict h keep),
    filterMap_located?_restrict, SymbolLayout.liveLocations, SymbolLayout.liveLocations,
    List.filterMap_filter, List.filter_filterMap, List.filter_filterMap]
  refine List.filterMap_congr fun p hp => ?_
  obtain ⟨u, x⟩ := p
  obtain ⟨hu, hx⟩ := mem_entriesOf.mp hp
  by_cases hkept : keep u x = true
  · rw [if_pos hkept]
  · rw [if_neg hkept]
    cases hfound : located? (u, x) with
    | none => rfl
    | some l =>
      obtain ⟨v, hv, rfl⟩ := located?_eq_some_iff.mp hfound
      have hdead : ¬ image.Keeps v := fun hkeeps => hkept (hkeep u hu x hx v hv hkeeps)
      have hdrop := mt SymbolLayout.contains_names_iff.mp (mt (isLive_iff hnames hu hx hv).mp hdead)
      rw [Option.filter_some, if_neg hdrop]
      rfl

/-- Recoveries that agree but for the locations they attach end alike. -/
theorem build_congr {units' : List CompileUnit}
    (hlayout : image.symbols.any isFormatSymbol = true)
    (hattach : SymbolLayout.attach (image.reporting units) =
      SymbolLayout.attach (image.reporting units')) :
    (image.reporting units).build supported maxDepth =
      (image.reporting units').build supported maxDepth := by
  have hrecover : (image.reporting units).recover supported maxDepth =
      (image.reporting units').recover supported maxDepth := by
    rw [recover_reporting hlayout, recover_reporting hlayout, hattach]
  rw [build, build, hrecover]

/-- Leaving out what describes no kept statement changes nothing. -/
theorem build_restrict (h : (image.reporting units).locationFault = none) (hnames : image.PlainNames units)
    (hlayout : image.symbols.any isFormatSymbol = true) {keep : CompileUnit → NestedEntry → Bool}
    (hkeep : ∀ u ∈ units, ∀ x ∈ u.entries, ∀ v, u.Describes x v → image.Keeps v → keep u x = true) :
    (image.reporting (units.map (·.restrict keep))).build supported maxDepth =
      (image.reporting units).build supported maxDepth := by
  have hknown : SymbolLayout.knownLocations (image.reporting (units.map (·.restrict keep))) =
      SymbolLayout.knownLocations (image.reporting units) := by
    have hlive : SymbolLayout.liveLocations (image.reporting (units.map (·.restrict keep))).symbols
        (image.reporting (units.map (·.restrict keep))).locations =
          SymbolLayout.liveLocations (image.reporting units).symbols
            (image.reporting units).locations := liveLocations_restrict h hnames hkeep
    rw [SymbolLayout.knownLocations, SymbolLayout.knownLocations, h, readable_restrict h keep, hlive]
  refine build_congr hlayout ?_
  unfold SymbolLayout.attach
  rw [hknown]

/-- Either nothing can be recovered, for one reason, or the same entries are made into a table without
debug information and, at their places, with it. -/
theorem build_cases (hread : (image.reporting units).locationFault = none) (h : image.Describes units)
    (hnames : image.PlainNames units) (hlayout : image.symbols.any isFormatSymbol = true)
    (supported : String) (maxDepth : Nat) :
    (∃ fault, ((image.reporting []).build supported maxDepth).1 = .error fault ∧
      ((image.reporting units).build supported maxDepth).1 = .error fault) ∨
    ∃ r place?, Recovery.Sound image.IsOfSymbol r ∧
      (∀ a place, place? a = some place ↔ image.Places units a place) ∧
      ((image.reporting []).build supported maxDepth).1 = tableOf r maxDepth ∧
      ((image.reporting units).build supported maxDepth).1 =
        tableOf { r with entries := r.entries.map (Entry.located place?) } maxDepth := by
  have hprepared := image.prepare_ends supported
  unfold EndsIn at hprepared
  cases hr : image.prepare supported Recovery.empty with
  | error fault r =>
    exact .inl ⟨fault, build_of_prepare_error hlayout hr [], build_of_prepare_error hlayout hr units⟩
  | ok _ r =>
    rw [hr] at hprepared
    obtain ⟨place?, hplace, hattach⟩ := attach_of_describes hread h hnames hprepared
    exact .inr ⟨r, place?, hprepared, hplace,
      build_of_attach hlayout hr (attach_reporting_nil image r), build_of_attach hlayout hr hattach⟩

/-- Entries of symbols have no places to be replaced. -/
theorem unplaced_map_located {es : List Entry} (hes : ∀ e ∈ es, image.IsOfSymbol e)
    (place? : Nat → Option Location) :
    (es.map (Entry.located place?)).map (Entry.located fun _ => none) = es := by
  have hself (e : Entry) (he : e ∈ es) :
      (Entry.located (fun _ => none) ∘ Entry.located place?) e = e := by
    rw [Function.comp_apply, Entry.located, Entry.located, ← (hes e he).1]
  rw [List.map_map, List.map_congr_left hself, List.map_id']

/-- An entry with a level has its place. -/
theorem isSome_place {e : Entry} (h : image.Describes units) (he : image.IsOfSymbol e)
    {place? : Nat → Option Location}
    (hplace : ∀ a place, place? a = some place ↔ image.Places units a place)
    (hlevel : e.level.isSome = true) : (place? e.index).isSome = true := by
  obtain ⟨s, hs, hindex⟩ := he.2 hlevel
  obtain ⟨place, hplaces⟩ := h.exists_places hs
  exact Option.isSome_iff_exists.mpr ⟨place, (hplace e.index place).mpr (hindex ▸ hplaces)⟩

/-- If a file cannot be looked up, there is no table. -/
theorem build_of_locationFault (h : image.Describes units) (hnames : image.PlainNames units)
    (hlayout : image.symbols.any isFormatSymbol = true) {fault : PathFault}
    (hfault : (image.reporting units).locationFault = some fault) {t : Table}
    (ht : ((image.reporting []).build supported maxDepth).1 = .ok t) :
    ((image.reporting units).build supported maxDepth).1 = .error (.location fault) := by
  cases hr : image.prepare supported Recovery.empty with
  | error first r =>
    rw [build_of_prepare_error hlayout hr] at ht
    cases ht
  | ok _ r =>
    have hattach : SymbolLayout.attach (image.reporting units) r = .error (.location fault) r :=
      SymbolLayout.attach_of_fault hfault (h.liveApart hnames)
    have hrecover : (image.reporting units).recover supported maxDepth Recovery.empty =
        .error (.location fault) r := by
      rw [recover_reporting hlayout]
      exact (bind_eq_of_ok hr).trans (bind_eq_of_error hattach)
    rw [build, hrecover]

/-- With all files looked up, there is a table for the same images, and it is the same but for its
locations. -/
theorem build_of_readable (hread : (image.reporting units).locationFault = none)
    (h : image.Describes units) (hnames : image.PlainNames units)
    (hlayout : image.symbols.any isFormatSymbol = true) (supported : String) (maxDepth : Nat) :
    (∀ fault, ((image.reporting []).build supported maxDepth).1 = .error fault →
      ((image.reporting units).build supported maxDepth).1 = .error fault) ∧
    ∀ t, ((image.reporting []).build supported maxDepth).1 = .ok t →
      ∃ t', ((image.reporting units).build supported maxDepth).1 = .ok t' ∧
        t'.version = t.version ∧ t'.maxDepth = t.maxDepth ∧ t'.timestamp = t.timestamp ∧
        t'.entries.map (Entry.located fun _ => none) = t.entries ∧
        ∀ e ∈ t'.entries, (e.level.isSome = true → e.location.isSome = true) ∧
          ∀ place, e.location = some place ↔ image.Places units e.index place := by
  rcases build_cases hread h hnames hlayout supported maxDepth with
    ⟨first, hbare, hfull⟩ | ⟨r, place?, hr, hplace, hbare, hfull⟩
  · rw [hbare, hfull]
    exact ⟨fun _ hfault => hfault, fun t ht => (by cases ht)⟩
  · rw [hbare, hfull]
    obtain ⟨herror, hok⟩ := tableOf_located r maxDepth place?
    refine ⟨herror, fun t ht => ?_⟩
    obtain ⟨t', ht', hversion, hdepth, hstamp, hentries, hmem⟩ := hok t ht
    have hof : ∀ e ∈ t.entries, image.IsOfSymbol e := fun e he => hr.entries e (hmem e he)
    refine ⟨t', ht', hversion, hdepth, hstamp, ?_, fun e he => ?_⟩
    · rw [hentries, unplaced_map_located hof]
    · rw [hentries] at he
      obtain ⟨first, hfirst, rfl⟩ := List.mem_map.mp he
      exact ⟨isSome_place h (hof first hfirst) hplace, hplace first.index⟩

/-- **Locations reach their log statements.** If every file can be looked up, a table is refused with its
debug information just if it is refused without; otherwise the two differ in locations only. Each log
statement has one, and an entry has exactly the places that variables of kept statements state for its
address. Variables of other statements may be left out. If a file cannot be looked up, that is raised. -/
theorem build_reporting (h : image.Describes units) (hnames : image.PlainNames units)
    (hlayout : image.symbols.any isFormatSymbol = true) (supported : String) (maxDepth : Nat) :
    ((image.reporting units).locationFault = none →
      (∀ fault, ((image.reporting []).build supported maxDepth).1 = .error fault →
        ((image.reporting units).build supported maxDepth).1 = .error fault) ∧
      (∀ t, ((image.reporting []).build supported maxDepth).1 = .ok t →
        ∃ t', ((image.reporting units).build supported maxDepth).1 = .ok t' ∧
          t'.version = t.version ∧ t'.maxDepth = t.maxDepth ∧ t'.timestamp = t.timestamp ∧
          t'.entries.map (Entry.located fun _ => none) = t.entries ∧
          ∀ e ∈ t'.entries, (e.level.isSome = true → e.location.isSome = true) ∧
            ∀ place, e.location = some place ↔ image.Places units e.index place) ∧
      ∀ keep : CompileUnit → NestedEntry → Bool,
        (∀ u ∈ units, ∀ x ∈ u.entries, ∀ v, u.Describes x v → image.Keeps v → keep u x = true) →
          (image.reporting (units.map (·.restrict keep))).build supported maxDepth =
            (image.reporting units).build supported maxDepth) ∧
    ∀ fault, (image.reporting units).locationFault = some fault →
      ∀ t, ((image.reporting []).build supported maxDepth).1 = .ok t →
        ((image.reporting units).build supported maxDepth).1 = .error (.location fault) := by
  refine ⟨fun hread => ?_, fun fault hfault t ht => build_of_locationFault h hnames hlayout hfault ht⟩
  obtain ⟨herror, hok⟩ := build_of_readable hread h hnames hlayout supported maxDepth
  exact ⟨herror, hok, fun keep hkeep => build_restrict hread hnames hlayout hkeep⟩

/-- What is found at distinct addresses is described at distinct addresses. -/
theorem distinct_of_located (h : ((entriesOf units).filterMap located?).Pairwise
    fun l l' => l.address ≠ l'.address) :
    (entriesOf units).Pairwise fun p q => ∀ v w, p.1.Describes p.2 v → q.1.Describes q.2 w →
      image.Keeps v → image.Keeps w → v.address ≠ w.address := by
  rw [List.pairwise_filterMap] at h
  refine h.imp fun {p q} hne v w hv hw _ _ => ?_
  exact hne v.noted hv.located?_eq_some w.noted hw.located?_eq_some

/-- Linkage names with one mark each are plain. -/
theorem plainNames_of_count (h : ∀ p ∈ entriesOf units, ∀ name ∈ p.2.entry.text? .linkageName,
    name.toList.count disambiguatorMark ≤ 1) : image.PlainNames units where
  own u hu x hx v hv s _ _ hof := by
    have hcount := h (u, x) (mem_entriesOf.mpr ⟨hu, hx⟩) v.linkageName hv.linkageName
    rcases hof with ⟨disambiguator, -, heq⟩ | ⟨hnone, -⟩
    · exact (not_mem_of_count_le_one hcount heq).1
    · exact hnone
  rest u hu x hx v hv s _ _ rest heq := by
    have hcount := h (u, x) (mem_entriesOf.mpr ⟨hu, hx⟩) v.linkageName hv.linkageName
    exact (not_mem_of_count_le_one hcount heq).2

/-- The variable of a statement in the namespace `app`, at a line of the first file. -/
def sampleVariable (linkageName : String) (address : UInt8) (line : Nat) : NestedEntry where
  entry := ⟨.variableEntry,
    [⟨.name, .string, .text (Text.Utf8.encode statementVariable)⟩,
      ⟨.linkageName, .string, .text (Text.Utf8.encode linkageName)⟩,
      ⟨.declarationFile, .data1, .number 1⟩, ⟨.declarationLine, .data2, .number line⟩,
      ⟨.location, .exprloc, .block [0x03, address, 0, 0, 0]⟩]⟩
  ancestors := [⟨.namespaceEntry, [⟨.name, .string, .text (Text.Utf8.encode "app")⟩]⟩]

/-- A unit with one file. -/
def sampleUnit (entries : List NestedEntry) : CompileUnit where
  encoding := ⟨.little, 4⟩
  directory := some "/build"
  lines := .ok (some ⟨4, some [⟨Text.Utf8.encode "main.rs", 0⟩], some []⟩)
  entries := entries

/-- The place of a line in that file. -/
def samplePlace (line : Nat) : Location := ⟨"app", "/build/main.rs", some (.number line)⟩

theorem sampleUnit_describes (entries : List NestedEntry) (linkageName : String) (address : UInt8)
    (line : Nat) : (sampleUnit entries).Describes (sampleVariable linkageName address line)
      ⟨linkageName, address.toNat, samplePlace line⟩ where
  tag := rfl
  name := congrArg some (Text.Utf8.decodeLossy_encode _)
  linkageName := congrArg some (Text.Utf8.decodeLossy_encode _)
  address := by
    refine ⟨_, rfl, (locationAddress?_address rfl rfl).trans (congrArg some ?_)⟩
    simp [sampleUnit, ByteOrder.value, littleEndian]
  location := by
    have hscope : (sampleVariable linkageName address line).namespaces = ["app"] := by
      have happ : NestedEntry.namespaces (sampleVariable linkageName address line) =
          [Text.Utf8.decodeLossy (Text.Utf8.encode "app")] := rfl
      rw [happ, Text.Utf8.decodeLossy_encode]
    have hpath : LineTable.namedPath? ⟨4, some [⟨Text.Utf8.encode "main.rs", 0⟩], some []⟩
        (some "/build") (.number 1) = .ok (some "/build/main.rs") := by decide
    refine ⟨_, .number 1, .number line, "/build/main.rs", rfl, rfl, rfl, hpath, ?_⟩
    rw [hscope, String.intercalate_singleton]
    rfl

/-- The index, the level and the location of each entry, if a table is built. -/
def placements? (image : Image) : Option (List (Nat × Option Level × Option Location)) :=
  match (image.build Version.wireFormat Table.defaultMaxDepth).1 with
  | .ok t => some (t.entries.map fun e => (e.index, e.level, e.location))
  | .error _ => none

theorem exists_of_placements? {found : List (Nat × Option Level × Option Location)}
    (h : image.placements? = some found) :
    ∃ t, (image.build Version.wireFormat Table.defaultMaxDepth).1 = .ok t ∧
      t.entries.map (fun e => (e.index, e.level, e.location)) = found := by
  unfold placements? at h
  cases hb : (image.build Version.wireFormat Table.defaultMaxDepth).1 with
  | ok t =>
    rw [hb] at h
    exact ⟨t, rfl, Option.some.inj h⟩
  | error cause =>
    rw [hb] at h
    cases h

/-- Two statements that are kept. -/
def placedSample : Image := ofSymbols
  [⟨"_defmt_version_ = 0.2.1", 0, none⟩, ⟨"_defmt_info_start", 1, some symbolSection⟩,
    ⟨"_defmt_info_end", 3, some symbolSection⟩, ⟨"x=\x7b=u8\x7d", 1, some symbolSection⟩,
    ⟨"ready", 2, some symbolSection⟩]

/-- The variables of these statements, and of one that the linker has removed. -/
def placedUnits : List CompileUnit :=
  [sampleUnit [sampleVariable "x=\x7b=u8\x7d@ab12" 1 10, sampleVariable "gone@cd34" 0 20,
    sampleVariable "ready@ef56" 2 30]]

theorem placedSample_describes : placedSample.Describes placedUnits where
  described := by
    rintro s ⟨hs, -⟩
    have hcandidates : SymbolLayout.candidates placedSample.symbols =
        [⟨"x=\x7b=u8\x7d", 1, some symbolSection⟩, ⟨"ready", 2, some symbolSection⟩] := by
      decide
    rw [hcandidates] at hs
    refine ⟨_, List.mem_singleton_self _, ?_⟩
    rcases List.mem_cons.mp hs with rfl | hs
    · exact ⟨_, .head _, _, sampleUnit_describes _ "x=\x7b=u8\x7d@ab12" 1 10,
        .inl ⟨"ab12", by decide, rfl⟩, rfl⟩
    · obtain rfl := List.mem_singleton.mp hs
      exact ⟨_, .tail _ (.tail _ (.head _)), _, sampleUnit_describes _ "ready@ef56" 2 30,
        .inl ⟨"ef56", by decide, rfl⟩, rfl⟩
  distinct := distinct_of_located (by decide)

theorem build_reporting_sample :
    placedSample.Describes placedUnits ∧ placedSample.PlainNames placedUnits ∧
      placedSample.symbols.any isFormatSymbol = true ∧
      (placedSample.reporting placedUnits).locationFault = none ∧
      ∃ t t', ((placedSample.reporting []).build Version.wireFormat
          Table.defaultMaxDepth).1 = .ok t ∧
        t.entries.map (fun e => (e.index, e.level, e.location)) =
          [(1, some .info, none), (2, some .info, none)] ∧
        ((placedSample.reporting placedUnits).build Version.wireFormat
          Table.defaultMaxDepth).1 = .ok t' ∧
        t'.entries.map (Entry.located fun _ => none) = t.entries ∧
        ∀ e ∈ t'.entries, (e.level.isSome = true → e.location.isSome = true) ∧
          ∀ place, e.location = some place ↔ placedSample.Places placedUnits e.index place := by
  have hnames : placedSample.PlainNames placedUnits := plainNames_of_count (by decide)
  have hlayout : placedSample.symbols.any isFormatSymbol = true := by decide
  have hread : (placedSample.reporting placedUnits).locationFault = none := by decide
  have hplacements : (placedSample.reporting []).placements? =
      some [(1, some .info, none), (2, some .info, none)] := by decide +kernel
  obtain ⟨t, ht, hentries⟩ := exists_of_placements? hplacements
  obtain ⟨-, hplaced, -⟩ := (build_reporting placedSample_describes hnames hlayout
    Version.wireFormat Table.defaultMaxDepth).1 hread
  obtain ⟨t', ht', -, -, -, hsame, hplaces⟩ := hplaced t ht
  exact ⟨placedSample_describes, hnames, hlayout, hread, t, t', ht, hentries, ht', hsame, hplaces⟩

/-! ## Statements without a location -/

/-- **All or nothing.** If a log statement is found no location, no entry gets one. -/
theorem build_of_missing (hread : (image.reporting units).locationFault = none)
    (hapart : (image.reporting units).LiveApart)
    (hlayout : image.symbols.any isFormatSymbol = true) {s : ImageSymbol}
    (hs : image.IsLogStatement s)
    (hmissing : ∀ place, ¬ (image.reporting units).LiveAt s.address place) :
    ((image.reporting units).build supported maxDepth).1 =
      ((image.reporting []).build supported maxDepth).1 := by
  have hcovers := image.prepare_covers supported
  unfold EndsIn at hcovers
  cases hr : image.prepare supported Recovery.empty with
  | error fault r => rw [build_of_prepare_error hlayout hr, build_of_prepare_error hlayout hr]
  | ok _ r =>
    rw [hr] at hcovers
    obtain ⟨e, he, hindex, hlevel⟩ := hcovers s hs
    obtain ⟨records, hattach⟩ := SymbolLayout.attach_of_missing hread hapart he hlevel
      (by rw [hindex]; exact hmissing)
    rw [build_of_attach hlayout hr hattach, build_of_attach hlayout hr (attach_reporting_nil image r)]
    rfl

/-- The name of a statement that holds a mark is cut, and its variable is taken for one of another
statement. If the linker has kept none of that name, all locations are lost. -/
theorem build_of_marked (hread : (image.reporting units).locationFault = none)
    (hapart : (image.reporting units).LiveApart)
    (hlayout : image.symbols.any isFormatSymbol = true) {s : ImageSymbol}
    (hs : image.IsLogStatement s) (hmark : disambiguatorMark ∈ s.name.toList)
    (hown : ∀ u ∈ units, ∀ x ∈ u.entries, ∀ v, u.Describes x v → v.address = s.address → v.IsOf s.name)
    (hcut : ∀ s' ∈ image.symbols, isFormatSymbol s' = true → s'.name ≠ symbolName s.name) :
    ((image.reporting units).build supported maxDepth).1 =
      ((image.reporting []).build supported maxDepth).1 := by
  refine build_of_missing hread hapart hlayout hs fun place hplace => ?_
  obtain ⟨l, hl, ⟨s', hsymbol, hsection, hlive⟩, haddress, -⟩ := hplace
  obtain ⟨u, hu, x, hx, v, hv, rfl⟩ := (mem_locations_reporting hread).mp hl
  rcases hown u hu x hx v hv haddress with ⟨disambiguator, -, hname⟩ | ⟨hnone, -⟩
  · refine hcut s' hsymbol hsection (hlive.trans ?_)
    rw [Variable.noted, hname, String.append_assoc, symbolName_append_of_mem hmark]
  · exact hnone hmark

/-- A statement with an argument in the format of another entry. -/
def markedSample : Image := ofSymbols
  [⟨"_defmt_version_ = 0.2.1", 0, none⟩, ⟨"_defmt_info_start", 1, some symbolSection⟩,
    ⟨"_defmt_info_end", 2, some symbolSection⟩, ⟨"x=\x7b=@3\x7d", 1, some symbolSection⟩]

/-- The variable of that statement. -/
def markedUnits : List CompileUnit := [sampleUnit [sampleVariable "x=\x7b=@3\x7d@ab12" 1 10]]

theorem markedSample_describes : markedSample.Describes markedUnits where
  described := by
    rintro s ⟨hs, -⟩
    have hcandidates : SymbolLayout.candidates markedSample.symbols =
        [⟨"x=\x7b=@3\x7d", 1, some symbolSection⟩] := by decide
    rw [hcandidates] at hs
    obtain rfl := List.mem_singleton.mp hs
    exact ⟨_, .head _, _, .head _, _, sampleUnit_describes _ "x=\x7b=@3\x7d@ab12" 1 10,
      .inl ⟨"ab12", by decide, rfl⟩, rfl⟩
  distinct := distinct_of_located (by decide)

/-- The statement is described, and its variable states a place, but its entry has no location. -/
theorem build_markedSample :
    markedSample.Describes markedUnits ∧ (markedSample.reporting markedUnits).locationFault = none ∧
      markedSample.Places markedUnits 1 (samplePlace 10) ∧
      ∃ t, ((markedSample.reporting markedUnits).build Version.wireFormat
          Table.defaultMaxDepth).1 = .ok t ∧
        t.entries.map (fun e => (e.index, e.level, e.location)) = [(1, some .info, none)] := by
  have hplaces : markedSample.Places markedUnits 1 (samplePlace 10) := by
    refine ⟨_, .head _, _, .head _, _, sampleUnit_describes _ "x=\x7b=@3\x7d@ab12" 1 10, ?_, rfl, rfl⟩
    exact ⟨⟨"x=\x7b=@3\x7d", 1, some symbolSection⟩, by simp [markedSample, ofSymbols], by decide,
      .inl ⟨"ab12", by decide, rfl⟩⟩
  have hplacements : (markedSample.reporting markedUnits).placements? =
      some [(1, some .info, none)] := by decide +kernel
  exact ⟨markedSample_describes, by decide, hplaces, exists_of_placements? hplacements⟩

end Image

end DeferredLog
