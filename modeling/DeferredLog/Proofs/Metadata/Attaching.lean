import DeferredLog.Proofs.Metadata.SymbolTable

/-!
# All locations or none

A location is live if its statement is one that the linker has kept. Two live locations for one address
end the building of a table. Otherwise locations are attached to all log statements or to no entry, and
that some were found in vain is reported once:

    image.IsPartial entries → no entry has a location, and there is one more record
    ¬ image.IsPartial entries → every entry has the live location for its index           (build_locations)

Nothing of this depends on the other locations: between two lists of locations that are made of each other
by adding, removing and moving ones that are not live, `build` does not tell the difference
(`build_of_edits`).
-/

namespace DeferredLog

namespace Image

open Recovering SymbolLayout

/-- There are live locations, but not for every entry with a level. -/
def IsPartial (image : Image) (entries : List Entry) : Prop :=
  (∃ address place, image.LiveAt address place) ∧
    ∃ e ∈ entries, e.level.isSome = true ∧ ∀ place, ¬ image.LiveAt e.index place

variable {image : Image} {symbols : List ImageSymbol} {found found' : List StatementLocation}
  {l : StatementLocation} {supported : String} {maxDepth : Nat} {r r' : Recovery}

/-! ## Other locations -/

/-- One change to a list of locations that concerns one which is not live. -/
inductive EditsDead (symbols : List ImageSymbol) :
    List StatementLocation → List StatementLocation → Prop
  | add (before after : List StatementLocation) {l : StatementLocation} :
      ¬ IsLive symbols l → EditsDead symbols (before ++ after) (before ++ l :: after)
  | remove (before after : List StatementLocation) {l : StatementLocation} :
      ¬ IsLive symbols l → EditsDead symbols (before ++ l :: after) (before ++ after)
  | forward (before after : List StatementLocation) {l l' : StatementLocation} :
      ¬ IsLive symbols l → EditsDead symbols (before ++ l' :: l :: after) (before ++ l :: l' :: after)
  | backward (before after : List StatementLocation) {l l' : StatementLocation} :
      ¬ IsLive symbols l → EditsDead symbols (before ++ l :: l' :: after) (before ++ l' :: l :: after)

theorem liveLocations_cons (h : ¬ IsLive symbols l) (found : List StatementLocation) :
    liveLocations symbols (l :: found) = liveLocations symbols found := by
  unfold liveLocations
  exact List.filter_cons_of_neg (mt contains_names_iff.mp h)

theorem liveLocations_append (before after : List StatementLocation) :
    liveLocations symbols (before ++ after) =
      liveLocations symbols before ++ liveLocations symbols after :=
  List.filter_append ..

/-- A change leaves the live locations as they are. -/
theorem EditsDead.liveLocations_eq (h : EditsDead symbols found found') :
    liveLocations symbols found' = liveLocations symbols found := by
  have hmove {l l' : StatementLocation} (hl : ¬ IsLive symbols l) (after : List StatementLocation) :
      liveLocations symbols (l' :: l :: after) = liveLocations symbols (l :: l' :: after) := by
    rw [liveLocations_cons hl, ← List.singleton_append, liveLocations_append, liveLocations_cons hl,
      ← liveLocations_append, List.singleton_append]
  cases h with
  | add before after hl => rw [liveLocations_append, liveLocations_append, liveLocations_cons hl]
  | remove before after hl => rw [liveLocations_append, liveLocations_append, liveLocations_cons hl]
  | forward before after hl => rw [liveLocations_append, liveLocations_append, hmove hl]
  | backward before after hl => rw [liveLocations_append, liveLocations_append, hmove hl]

/-- So do any number of changes. -/
theorem liveLocations_of_edits (h : Relation.ReflTransGen (EditsDead symbols) found found') :
    liveLocations symbols found' = liveLocations symbols found := by
  induction h with
  | refl => rfl
  | tail _ hstep ih => exact hstep.liveLocations_eq.trans ih

/-- Only live locations are looked at. -/
theorem build_of_edits (h : Relation.ReflTransGen (EditsDead image.symbols) image.locations found) :
    { image with locations := found }.build supported maxDepth = image.build supported maxDepth := by
  have hknown : knownLocations { image with locations := found } = knownLocations image := by
    simp only [knownLocations, liveLocations_of_edits h]
  have hattach : attach { image with locations := found } = attach image := by
    unfold attach
    rw [hknown]
  simp only [build, recover, hattach]
  rfl

/-! ## Attaching -/

/-- Without live locations nothing is attached. -/
theorem attach_of_no_live (hfault : image.locationFault = none)
    (hnone : ∀ address place, ¬ image.LiveAt address place) : attach image r = .ok () r := by
  have hlive : liveLocations image.symbols image.locations = [] := by
    rw [List.eq_nil_iff_forall_not_mem]
    intro l hl
    exact hnone l.address l.location (liveAt_iff.mp ⟨l, hl, rfl, rfl⟩)
  simp only [attach, knownLocations, hlive, byAddress, hfault]
  rfl

theorem attach_of_isPartial (hfault : image.locationFault = none) (hapart : image.LiveApart)
    (hpartial : image.IsPartial r.entries) :
    attach image r = .ok () { r with records := r.records ++ [incompleteRecord] } := by
  obtain ⟨⟨address, place, hplace⟩, e, he, hlevel, hmissing⟩ := hpartial
  obtain ⟨known, hknown, hiff⟩ := exists_knownLocations hfault hapart
  have hfound : ¬ known.isEmpty = true := by
    intro hempty
    have hsome := (hiff address place).mpr hplace
    rw [Std.TreeMap.getElem?_of_isEmpty hempty] at hsome
    cases hsome
  have hincomplete : ¬ isComplete known r.entries = true := by
    intro hfull
    obtain ⟨place, hplace⟩ := Option.isSome_iff_exists.mp (isComplete_iff.mp hfull e he hlevel)
    exact hmissing place ((hiff _ _).mp hplace)
  simp only [attach, hknown, if_neg hfound, if_neg hincomplete]

/-- Entries that have no locations so far get all live ones, unless there are some for others only. -/
theorem attach_of_not_isPartial (hfault : image.locationFault = none) (hapart : image.LiveApart)
    (hnone : ∀ e ∈ r.entries, e.location = none) (hwhole : ¬ image.IsPartial r.entries) :
    ∃ place? : Nat → Option Location, (∀ a place, place? a = some place ↔ image.LiveAt a place) ∧
      attach image r = .ok () { r with entries := r.entries.map (Entry.located place?) } := by
  by_cases hlive : ∃ address place, image.LiveAt address place
  · have hcomplete : ∀ e ∈ r.entries, e.level.isSome = true → ∃ place, image.LiveAt e.index place := by
      intro e he hlevel
      by_contra hmissing
      exact hwhole ⟨hlive, e, he, hlevel, fun place hplace => hmissing ⟨place, hplace⟩⟩
    exact attach_of_complete hfault hapart hcomplete hnone
  · have hdead : ∀ address place, ¬ image.LiveAt address place := by simpa using hlive
    refine ⟨fun _ => none, fun a place => iff_of_false (fun h => by cases h) (hdead a place), ?_⟩
    have hself (e : Entry) (he : e ∈ r.entries) : e.located (fun _ => none) = e := by
      rw [Entry.located, ← hnone e he]
    rw [attach_of_no_live hfault hdead, List.map_congr_left hself, List.map_id']

/-! ## Building -/

/-- The last record of a recovery is on its table, if it has come to one. -/
def finalRecords (outcome : Except RecoveryFault Table) : List Log.Record :=
  match outcome with
  | .ok t => [tableRecord t]
  | .error _ => []

theorem build_of_attach_ok (hlayout : image.symbols.any isFormatSymbol = true)
    (hr : image.prepare supported Recovery.empty = .ok () r) (hattach : attach image r = .ok () r') :
    image.build supported maxDepth = (tableOf r' maxDepth,
      { r' with records := r'.records ++ finalRecords (tableOf r' maxDepth) }) := by
  have hrecover : image.recover supported maxDepth Recovery.empty = finish maxDepth r' := by
    rw [recover_of_symbols hlayout]
    exact (bind_eq_of_ok hr).trans (bind_eq_of_ok hattach)
  rw [build, hrecover, tableOf, finish]
  cases Table.ofEntries r'.entries (r'.version.getD "") r'.timestamp maxDepth with
  | ok t => rfl
  | error cause => simp [finalRecords]

theorem build_of_attach_error {fault : RecoveryFault}
    (hlayout : image.symbols.any isFormatSymbol = true)
    (hr : image.prepare supported Recovery.empty = .ok () r)
    (hattach : attach image r = .error fault r') : image.build supported maxDepth = (.error fault, r') := by
  have hrecover : image.recover supported maxDepth Recovery.empty = .error fault r' := by
    rw [recover_of_symbols hlayout]
    exact (bind_eq_of_ok hr).trans (bind_eq_of_error hattach)
  rw [build, hrecover]

/-- What is recovered before locations are attached reports what the reading of the image reported. -/
theorem prepare_records (image : Image) (supported : String) :
    EndsIn (fun _ => True) (fun _ r => r.records = image.symbolRecords ++ image.locationRecords)
      (image.prepare supported) Recovery.empty := by
  have hadd (make : ImageSymbol → Except RecoveryFault Entry) (ss : List ImageSymbol) (r : Recovery) :
      EndsIn (fun _ => True) (fun _ r' => r'.records = r.records) (addEach make ss) r := by
    induction ss generalizing r with
    | nil => exact .pure rfl
    | cons s ss ih =>
      unfold addEach
      cases make s with
      | error fault => exact .fail trivial
      | ok e =>
        have hfirst : EndsIn (fun _ => True) (fun _ r' => r'.records = r.records) (addEntry e) r := by
          unfold EndsIn addEntry
          by_cases htag : e.tag = timestampTag
          · rw [if_pos htag]
            cases r.timestamp with
            | some i => exact trivial
            | none => rfl
          · rw [if_neg htag]
        exact hfirst.bind fun _ r' hr' => (ih r').imp fun _ r'' hr'' => hr''.trans hr'
  have hcollect (r : Recovery) : EndsIn (fun _ => True) (fun _ r' => r'.records = r.records)
      (SymbolLayout.collect image.symbols) r := by
    unfold SymbolLayout.collect
    split
    · exact .fail trivial
    · refine EndsIn.bind (Q := fun _ r' => r'.records = r.records) rfl fun _ r' hr' => ?_
      split
      · exact .fail trivial
      · exact (hadd _ _ r').imp fun _ r'' hr'' => hr''.trans hr'
    · exact .fail trivial
  unfold prepare
  refine EndsIn.bind (Q := fun _ r => r.records = image.symbolRecords) rfl fun _ r hr => ?_
  refine (hcollect r).bind fun _ r' hr' => ?_
  refine (checkVersion_keeps (Q := fun r => r.records = image.symbolRecords) (hr'.trans hr)).bind ?_
  intro _ r'' hr''
  show r''.records ++ image.locationRecords = _
  rw [hr'']

/-- All log statements of a table have locations, and its entries the live ones, or no entry has any. -/
def AllOrNone (image : Image) (t : Table) : Prop :=
  (∀ e ∈ t.entries, (e.level.isSome = true → e.location.isSome = true) ∧
    ∀ place, e.location = some place ↔ image.LiveAt e.index place) ∨
  ∀ e ∈ t.entries, e.location = none

/-- A table is the one that is built without any locations, but for the locations of its entries. -/
structure ExtendsBare (bare t : Table) : Prop where
  version : t.version = bare.version
  maxDepth : t.maxDepth = bare.maxDepth
  timestamp : t.timestamp = bare.timestamp
  entries : t.entries.map (Entry.located fun _ => none) = bare.entries

theorem ExtendsBare.of_unplaced {bare : Table} (hnone : ∀ e ∈ bare.entries, e.location = none) :
    ExtendsBare bare bare := by
  refine ⟨rfl, rfl, rfl, ?_⟩
  have hself (e : Entry) (he : e ∈ bare.entries) : e.located (fun _ => none) = e := by
    rw [Entry.located, ← hnone e he]
  rw [List.map_congr_left hself, List.map_id']

/-- The image without any locations. -/
def unlocated (image : Image) : Image := { image with locations := [] }

theorem build_unlocated (hlayout : image.symbols.any isFormatSymbol = true)
    (hfault : image.locationFault = none)
    (hr : image.prepare supported Recovery.empty = .ok () r) :
    (image.unlocated.build supported maxDepth).1 = tableOf r maxDepth := by
  have hattach : attach image.unlocated r = .ok () r := by
    refine attach_of_no_live hfault ?_
    rintro address place ⟨l, hl, -⟩
    cases hl
  have hbuild : image.unlocated.build supported maxDepth = (tableOf r maxDepth,
      { r with records := r.records ++ finalRecords (tableOf r maxDepth) }) :=
    build_of_attach_ok hlayout hr hattach
  exact congrArg Prod.fst hbuild

theorem build_of_isPartial (hlayout : image.symbols.any isFormatSymbol = true)
    (hr : image.prepare supported Recovery.empty = .ok () r) (hapart : image.LiveApart)
    (hfault : image.locationFault = none) (hpartial : image.IsPartial r.entries) :
    image.build supported maxDepth = (tableOf r maxDepth,
      { r with records := r.records ++ incompleteRecord :: finalRecords (tableOf r maxDepth) }) := by
  have hattach := attach_of_isPartial hfault hapart hpartial
  rw [build_of_attach_ok hlayout hr hattach]
  show (tableOf r maxDepth, _) = _
  rw [List.append_assoc]
  rfl

/-- The entries of symbols are not placed in the table that they make. -/
theorem location_eq_none_of_tableOf (hr : r.Sound image.IsOfSymbol) {bare : Table}
    (hbare : tableOf r maxDepth = .ok bare) : ∀ e ∈ bare.entries, e.location = none := by
  obtain ⟨_, -, -, -, -, -, hmem⟩ := (tableOf_located r maxDepth fun _ => none).2 bare hbare
  exact fun e he => (hr.entries e (hmem e he)).1

/-- A table of entries of symbols, whose locations are those that `place?` states. -/
theorem extendsBare_of_located (hr : r.Sound image.IsOfSymbol) (place? : Nat → Option Location)
    {bare : Table} (hbare : tableOf r maxDepth = .ok bare) :
    ∃ t, tableOf { r with entries := r.entries.map (Entry.located place?) } maxDepth = .ok t ∧
      ExtendsBare bare t ∧ ∀ e ∈ t.entries, e.location = place? e.index ∧
        ∃ e₀ ∈ r.entries, e₀.index = e.index ∧ e₀.level = e.level := by
  obtain ⟨t, ht, hversion, hdepth, hstamp, hentries, hmem⟩ :=
    (tableOf_located r maxDepth place?).2 bare hbare
  have hof : ∀ e ∈ bare.entries, image.IsOfSymbol e := fun e he => hr.entries e (hmem e he)
  refine ⟨t, ht, ⟨hversion, hdepth, hstamp, ?_⟩, fun e he => ?_⟩
  · rw [hentries, unplaced_map_located hof]
  · rw [hentries, List.mem_map] at he
    obtain ⟨e₀, he₀, rfl⟩ := he
    exact ⟨rfl, e₀, hmem e₀ he₀, rfl, rfl⟩

/-- If the live locations are enough, the entries of the table have them. -/
theorem build_of_not_isPartial (hlayout : image.symbols.any isFormatSymbol = true)
    (hr : image.prepare supported Recovery.empty = .ok () r) (hsound : r.Sound image.IsOfSymbol)
    (hapart : image.LiveApart) (hfault : image.locationFault = none)
    (hwhole : ¬ image.IsPartial r.entries) :
    (∀ fault, tableOf r maxDepth = .error fault →
      (image.build supported maxDepth).1 = .error fault) ∧
    (∀ bare, tableOf r maxDepth = .ok bare → ∃ t, (image.build supported maxDepth).1 = .ok t ∧
      ExtendsBare bare t ∧ image.AllOrNone t ∧
      ∀ e ∈ t.entries, ∀ place, e.location = some place ↔ image.LiveAt e.index place) ∧
    (image.build supported maxDepth).2.records =
      r.records ++ finalRecords (image.build supported maxDepth).1 := by
  obtain ⟨place?, hiff, hattach⟩ := attach_of_not_isPartial hfault hapart
    (fun e he => (hsound.entries e he).1) hwhole
  rw [build_of_attach_ok hlayout hr hattach]
  refine ⟨fun fault hbare => (tableOf_located r maxDepth place?).1 fault hbare, fun bare hbare => ?_, rfl⟩
  obtain ⟨t, ht, hextends, hentries⟩ := extendsBare_of_located hsound place? hbare
  have hlocations : ∀ e ∈ t.entries, ∀ place, e.location = some place ↔ image.LiveAt e.index place := by
    intro e he place
    rw [(hentries e he).1, hiff]
  refine ⟨t, ht, hextends, ?_, hlocations⟩
  by_cases hlive : ∃ address place, image.LiveAt address place
  · refine .inl fun e he => ⟨fun hlevel => ?_, hlocations e he⟩
    -- an entry with a level but no live location would leave the live ones for others only
    by_contra hnone
    obtain ⟨e₀, he₀, hindex, hsame⟩ := (hentries e he).2
    refine hwhole ⟨hlive, e₀, he₀, by rwa [hsame], fun place hplace => hnone ?_⟩
    rw [(hlocations e he place).mpr (hindex ▸ hplace), Option.isSome_some]
  · refine .inr fun e he => ?_
    rw [Option.eq_none_iff_forall_ne_some]
    intro place hplace
    exact hlive ⟨e.index, place, (hlocations e he place).mp hplace⟩

/-- **All locations or none.** Once everything else has been recovered, two live locations for one address
end the building of a table. Otherwise it ends as it does without locations, but that all log statements
have one or none does, and there is one record more if there are live locations that are not enough. No
other location makes any difference. -/
theorem build_locations (image : Image) (supported : String) (maxDepth : Nat) (r : Recovery)
    (hlayout : image.symbols.any isFormatSymbol = true)
    (hr : image.prepare supported Recovery.empty = .ok () r) :
    r.records = image.symbolRecords ++ image.locationRecords ∧
    (¬ image.LiveApart →
      ∃ fault, fault.kind = .noTable ∧ image.build supported maxDepth = (.error fault, r)) ∧
    (image.LiveApart → image.locationFault = none →
      (∀ fault, (image.unlocated.build supported maxDepth).1 = .error fault →
        (image.build supported maxDepth).1 = .error fault) ∧
      (∀ bare, (image.unlocated.build supported maxDepth).1 = .ok bare →
        ∃ t, (image.build supported maxDepth).1 = .ok t ∧ ExtendsBare bare t ∧ image.AllOrNone t ∧
          (¬ image.IsPartial r.entries →
            ∀ e ∈ t.entries, ∀ place, e.location = some place ↔ image.LiveAt e.index place)) ∧
      (image.IsPartial r.entries → (image.build supported maxDepth).2.records =
        r.records ++ incompleteRecord :: finalRecords (image.build supported maxDepth).1) ∧
      (¬ image.IsPartial r.entries → (image.build supported maxDepth).2.records =
        r.records ++ finalRecords (image.build supported maxDepth).1)) ∧
    ∀ found, Relation.ReflTransGen (EditsDead image.symbols) image.locations found →
      { image with locations := found }.build supported maxDepth = image.build supported maxDepth := by
  have hrecords := image.prepare_records supported
  have hsound := image.prepare_ends supported
  unfold EndsIn at hrecords hsound
  rw [hr] at hrecords hsound
  refine ⟨hrecords, fun hapart => ?_, fun hapart hfault => ?_, fun found => build_of_edits⟩
  · obtain ⟨fault, hkind, hattach⟩ := attach_of_not_liveApart (r := r) hapart
    exact ⟨fault, hkind, build_of_attach_error hlayout hr hattach⟩
  · rw [build_unlocated hlayout hfault hr]
    by_cases hpartial : image.IsPartial r.entries
    · rw [build_of_isPartial hlayout hr hapart hfault hpartial]
      refine ⟨fun fault hbare => hbare, fun bare hbare => ?_, fun _ => rfl, fun hwhole => absurd hpartial hwhole⟩
      have hnone := location_eq_none_of_tableOf hsound hbare
      exact ⟨bare, hbare, .of_unplaced hnone, .inr hnone, fun hwhole => absurd hpartial hwhole⟩
    · obtain ⟨herror, hok, hfinal⟩ :=
        build_of_not_isPartial hlayout hr hsound hapart hfault hpartial
      refine ⟨herror, fun bare hbare => ?_, fun h => absurd h hpartial, fun _ => hfinal⟩
      obtain ⟨t, ht, hextends, hall, hlocations⟩ := hok bare hbare
      exact ⟨t, ht, hextends, hall, fun _ => hlocations⟩

/-- An image with a location besides, of a statement that the linker has left out. -/
def strayedSample : Image :=
  { rangedSample with locations :=
      ⟨"gone", 1, ⟨"app", "/build/gone.rs", some (.number 9)⟩⟩ :: rangedSample.locations }

theorem strayedSample_edits :
    Relation.ReflTransGen (EditsDead strayedSample.symbols) strayedSample.locations
      rangedSample.locations := by
  refine .single (.remove [] _ ?_)
  rw [← contains_names_iff]
  decide

theorem exists_prepare_of_build {t : Table} (hlayout : image.symbols.any isFormatSymbol = true)
    (ht : (image.build supported maxDepth).1 = .ok t) :
    ∃ r, image.prepare supported Recovery.empty = .ok () r := by
  cases hr : image.prepare supported Recovery.empty with
  | ok _ r => exact ⟨r, rfl⟩
  | error fault r =>
    have hrecover : image.recover supported maxDepth Recovery.empty = .error fault r := by
      rw [recover_of_symbols hlayout]
      exact bind_eq_of_error hr
    rw [build, hrecover] at ht
    cases ht

/-- The location besides is for the address of a statement, but there is no collision. -/
theorem build_locations_strayed :
    strayedSample.symbols.any isFormatSymbol = true ∧
      (∃ r, strayedSample.prepare Version.wireFormat Recovery.empty = .ok () r) ∧
      ∃ t, (strayedSample.build Version.wireFormat Table.defaultMaxDepth).1 = .ok t ∧
        t.entries.map (fun e => (e.index, e.level, e.location)) =
          [(1, some .info, some ⟨"app", "/build/main.rs", some (.number 7)⟩), (4, none, none)] := by
  have hlayout : strayedSample.symbols.any isFormatSymbol = true := by decide
  have hplacements : rangedSample.placements? =
      some [(1, some .info, some ⟨"app", "/build/main.rs", some (.number 7)⟩), (4, none, none)] := by
    decide +kernel
  obtain ⟨t, ht, hentries⟩ := exists_of_placements? hplacements
  have hprepare : ∃ r, rangedSample.prepare Version.wireFormat Recovery.empty = .ok () r :=
    exists_prepare_of_build hlayout ht
  obtain ⟨r, hr⟩ : ∃ r, strayedSample.prepare Version.wireFormat Recovery.empty = .ok () r := hprepare
  have hsame := (build_locations strayedSample Version.wireFormat Table.defaultMaxDepth r hlayout hr).2.2.2
    _ strayedSample_edits
  refine ⟨hlayout, ⟨r, hr⟩, t, ?_, hentries⟩
  rw [← hsame]
  exact ht

end Image

end DeferredLog
