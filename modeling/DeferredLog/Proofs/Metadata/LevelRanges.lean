import DeferredLog.Proofs.Metadata.Steps

/-!
# The address ranges of levels

Marker symbols say where the range of a level starts and ends. They are collected level by level, and a
marker is had again under its level and its edge:

    edgeAt? (enterEdge level edge a es) level' edge' =
      if level' = level ∧ edge' = edge then some a else edgeAt? es level' edge'        (edgeAt?_enterEdge)

So what is collected says the same as the symbols (`of_edgeAt?_edges`, `isSome_edgeAt?_edges`). The ranges
are had if every level that has a marker has both (`exists_ranges_iff`). If no edge is marked twice and no
two ranges overlap, an address has the level of the range that it is in (`levelAt?_eq_some_iff`), and no
order of symbols plays a part.
-/

namespace DeferredLog.SymbolLayout

/-! ## What symbols mark -/

/-- A symbol marks the edge of a level at an address. -/
def Marks (symbols : List ImageSymbol) (level : Level) (edge : Edge) (address : Nat) : Prop :=
  ∃ s ∈ formatSymbols symbols, edge? s.name = some (level, edge) ∧ s.address = address

/-- The markers among symbols. -/
def markers (symbols : List ImageSymbol) : List (Level × Edge × Nat) :=
  (formatSymbols symbols).filterMap fun s => (edge? s.name).map fun m => (m.1, m.2, s.address)

theorem mem_markers_iff {symbols : List ImageSymbol} {level : Level} {edge : Edge} {a : Nat} :
    (level, edge, a) ∈ markers symbols ↔ Marks symbols level edge a := by
  rw [markers, List.mem_filterMap, Marks]
  refine exists_congr fun s => and_congr_right fun _ => ?_
  simp only [Option.map_eq_some_iff, Prod.mk.injEq]
  constructor
  · rintro ⟨m, hm, rfl, rfl, rfl⟩
    exact ⟨hm, rfl⟩
  · rintro ⟨hm, rfl⟩
    exact ⟨(level, edge), hm, rfl, rfl, rfl⟩

/-- An address is in the range of a level. -/
def InRange (symbols : List ImageSymbol) (level : Level) (address : Nat) : Prop :=
  ∃ start finish, Marks symbols level .start start ∧ Marks symbols level .finish finish ∧
    start ≤ address ∧ address < finish

/-- Every edge is marked at one address, and no two ranges overlap. -/
structure MarkersApart (symbols : List ImageSymbol) : Prop where
  once : ∀ level edge a a', Marks symbols level edge a → Marks symbols level edge a' → a = a'
  disjoint : ∀ level level' a, InRange symbols level a → InRange symbols level' a → level = level'

/-- A level of which an edge is marked has both. -/
def RangesClosed (symbols : List ImageSymbol) : Prop :=
  ∀ level edge a, Marks symbols level edge a → ∀ edge', ∃ a', Marks symbols level edge' a'

/-! ## What is collected -/

/-- The address of an edge. -/
def Edges.at? (e : Edges) : Edge → Option Nat
  | .start => e.start
  | .finish => e.finish

@[simp] theorem Edges.set_level (edge : Edge) (a : Nat) (e : Edges) :
    (e.set edge a).level = e.level := by
  cases edge <;> rfl

theorem Edges.at?_set (edge edge' : Edge) (a : Nat) (e : Edges) :
    (e.set edge a).at? edge' = if edge' = edge then some a else e.at? edge' := by
  cases edge <;> cases edge' <;> rfl

/-- The address of an edge of a level. -/
def edgeAt? (es : List Edges) (level : Level) (edge : Edge) : Option Nat :=
  (es.find? fun e => e.level = level).bind fun e => e.at? edge

section
variable {es : List Edges} {level level' : Level} {edge edge' : Edge} {a : Nat} {e : Edges}

theorem edgeAt?_cons : edgeAt? (e :: es) level edge =
    if e.level = level then e.at? edge else edgeAt? es level edge := by
  rw [edgeAt?, List.find?_cons]
  by_cases h : e.level = level <;> simp [h, edgeAt?]

/-- A marker that is entered is had again, and changes no other. -/
theorem edgeAt?_enterEdge : edgeAt? (enterEdge level edge a es) level' edge' =
    if level' = level ∧ edge' = edge then some a else edgeAt? es level' edge' := by
  induction es with
  | nil =>
    rw [enterEdge, edgeAt?_cons, Edges.set_level, Edges.at?_set]
    by_cases hlevel : level = level'
    · subst hlevel
      cases edge' <;> simp [edgeAt?, Edges.at?]
    · simp [hlevel, Ne.symm hlevel, edgeAt?]
  | cons e es ih =>
    rw [enterEdge]
    by_cases he : e.level = level
    · rw [if_pos he, edgeAt?_cons, Edges.set_level, he, Edges.at?_set, edgeAt?_cons, he]
      by_cases hlevel : level = level'
      · subst hlevel
        simp
      · simp [hlevel, Ne.symm hlevel]
    · rw [if_neg he, edgeAt?_cons, ih, edgeAt?_cons]
      by_cases hlevel : e.level = level'
      · have hne : level' ≠ level := fun heq => he (hlevel.trans heq)
        simp [hlevel, hne]
      · simp [hlevel]

theorem mem_levels_enterEdge :
    level' ∈ (enterEdge level edge a es).map Edges.level ↔ level' = level ∨ level' ∈ es.map Edges.level := by
  induction es with
  | nil => simp [enterEdge]
  | cons e es ih =>
    rw [enterEdge]
    split_ifs with he
    · simp [he]
    · rw [List.map_cons, List.mem_cons, ih, List.map_cons, List.mem_cons]
      exact or_left_comm

/-- Every level has one place among those collected. -/
theorem nodup_levels_enterEdge (h : (es.map Edges.level).Nodup) :
    ((enterEdge level edge a es).map Edges.level).Nodup := by
  induction es with
  | nil => simp [enterEdge]
  | cons e es ih =>
    obtain ⟨hfirst, hrest⟩ := List.nodup_cons.mp h
    rw [enterEdge]
    split_ifs with he
    · rw [List.map_cons, Edges.set_level]
      exact h
    · rw [List.map_cons, List.nodup_cons, mem_levels_enterEdge]
      exact ⟨not_or.mpr ⟨he, hfirst⟩, ih hrest⟩

theorem edgeAt?_of_mem (hnodup : (es.map Edges.level).Nodup) (he : e ∈ es) (edge : Edge) :
    edgeAt? es e.level edge = e.at? edge := by
  induction es with
  | nil => cases he
  | cons first es ih =>
    obtain ⟨hfirst, hrest⟩ := List.nodup_cons.mp hnodup
    rw [edgeAt?_cons]
    rcases List.mem_cons.mp he with rfl | he
    · rw [if_pos rfl]
    · have hne : first.level ≠ e.level := fun heq => hfirst (heq ▸ List.mem_map_of_mem he)
      rw [if_neg hne, ih hrest he]

theorem exists_of_edgeAt? (h : edgeAt? es level edge = some a) :
    ∃ e ∈ es, e.level = level ∧ e.at? edge = some a := by
  obtain ⟨e, he, hat⟩ := Option.bind_eq_some_iff.mp h
  have hlevel := List.find?_some he
  exact ⟨e, List.mem_of_find?_eq_some he, of_decide_eq_true hlevel, hat⟩

end

/-! ## Collected from symbols -/

/-- Enters the marker that a symbol is, if it is one. -/
def enterSymbol (es : List Edges) (s : ImageSymbol) : List Edges :=
  match edge? s.name with
  | some (level, edge) => enterEdge level edge s.address es
  | none => es

theorem edges_eq_foldl (symbols : List ImageSymbol) :
    edges symbols = (formatSymbols symbols).foldl enterSymbol [] := rfl

section
variable {es : List Edges} {symbols ss : List ImageSymbol} {level : Level} {edge : Edge} {a : Nat}

theorem edgeAt?_enterSymbol (s : ImageSymbol) : edgeAt? (enterSymbol es s) level edge =
    if edge? s.name = some (level, edge) then some s.address else edgeAt? es level edge := by
  unfold enterSymbol
  split
  · next level' edge' hs =>
    rw [edgeAt?_enterEdge, hs]
    simp only [Option.some.injEq, Prod.mk.injEq, @eq_comm _ level', @eq_comm _ edge']
  · next hs => rw [hs, if_neg (by simp)]

/-- The last marker of an edge counts. -/
theorem edgeAt?_foldl : edgeAt? (ss.foldl enterSymbol es) level edge =
    ((ss.reverse.find? fun s => edge? s.name = some (level, edge)).map ImageSymbol.address).or
      (edgeAt? es level edge) := by
  induction ss generalizing es with
  | nil => simp
  | cons s ss ih =>
    rw [List.foldl_cons, ih, edgeAt?_enterSymbol, List.reverse_cons, List.find?_append, Option.map_or,
      Option.or_assoc]
    congr 1
    by_cases hs : edge? s.name = some (level, edge) <;> simp [hs]

theorem edgeAt?_edges (symbols : List ImageSymbol) (level : Level) (edge : Edge) :
    edgeAt? (edges symbols) level edge =
      ((formatSymbols symbols).reverse.find? fun s => edge? s.name = some (level, edge)).map
        ImageSymbol.address := by
  rw [edges_eq_foldl, edgeAt?_foldl]
  exact Option.or_none

theorem of_edgeAt?_edges (h : edgeAt? (edges symbols) level edge = some a) :
    Marks symbols level edge a := by
  rw [edgeAt?_edges] at h
  obtain ⟨s, hs, haddress⟩ := Option.map_eq_some_iff.mp h
  have hedge := List.find?_some hs
  exact ⟨s, List.mem_reverse.mp (List.mem_of_find?_eq_some hs), of_decide_eq_true hedge, haddress⟩

theorem isSome_edgeAt?_edges :
    (edgeAt? (edges symbols) level edge).isSome = true ↔ ∃ a, Marks symbols level edge a := by
  constructor
  · intro h
    obtain ⟨a, ha⟩ := Option.isSome_iff_exists.mp h
    exact ⟨a, of_edgeAt?_edges ha⟩
  · rintro ⟨a, s, hs, hedge, -⟩
    rw [edgeAt?_edges, Option.isSome_map, List.find?_isSome]
    exact ⟨s, List.mem_reverse.mpr hs, decide_eq_true hedge⟩

/-- If no edge is marked twice, the markers are what is collected. -/
theorem edgeAt?_edges_iff (hmarkers : MarkersApart symbols) :
    edgeAt? (edges symbols) level edge = some a ↔ Marks symbols level edge a := by
  refine ⟨of_edgeAt?_edges, fun h => ?_⟩
  obtain ⟨a', ha'⟩ := Option.isSome_iff_exists.mp (isSome_edgeAt?_edges.mpr ⟨a, h⟩)
  rw [ha', hmarkers.once level edge a' a (of_edgeAt?_edges ha') h]

theorem levels_foldl (hnodup : (es.map Edges.level).Nodup) :
    ((ss.foldl enterSymbol es).map Edges.level).Nodup ∧
      ∀ level, level ∈ (ss.foldl enterSymbol es).map Edges.level →
        level ∈ es.map Edges.level ∨ ∃ s ∈ ss, ∃ edge, edge? s.name = some (level, edge) := by
  induction ss generalizing es with
  | nil => exact ⟨hnodup, fun level hlevel => .inl hlevel⟩
  | cons s ss ih =>
    rw [List.foldl_cons, enterSymbol]
    split
    · next level' edge' hs =>
      obtain ⟨hall, hmem⟩ := ih (nodup_levels_enterEdge hnodup)
      refine ⟨hall, fun level hlevel => ?_⟩
      rcases hmem level hlevel with hes | ⟨s', hs', hedge⟩
      · rcases mem_levels_enterEdge.mp hes with rfl | hes
        · exact .inr ⟨s, List.mem_cons_self, edge', hs⟩
        · exact .inl hes
      · exact .inr ⟨s', List.mem_cons_of_mem _ hs', hedge⟩
    · obtain ⟨hall, hmem⟩ := ih hnodup
      refine ⟨hall, fun level hlevel => (hmem level hlevel).imp_right ?_⟩
      rintro ⟨s', hs', hedge⟩
      exact ⟨s', List.mem_cons_of_mem _ hs', hedge⟩

/-- Every level that is collected has one place, and a marker. -/
theorem levels_edges (symbols : List ImageSymbol) : ((edges symbols).map Edges.level).Nodup ∧
    ∀ e ∈ edges symbols, ∃ edge a, Marks symbols e.level edge a := by
  obtain ⟨hnodup, hmem⟩ := @levels_foldl [] (formatSymbols symbols) .nil
  refine ⟨hnodup, fun e he => ?_⟩
  rcases hmem e.level (List.mem_map_of_mem he) with hnil | ⟨s, hs, edge, hedge⟩
  · cases hnil
  · exact ⟨edge, s.address, s, hs, hedge, rfl⟩

end

/-! ## Ranges -/

/-- The edges of a range. -/
def LevelRange.edges (r : LevelRange) : Edges := ⟨r.level, some r.start, some r.finish⟩

section
variable {es : List Edges} {rs : List LevelRange} {symbols : List ImageSymbol} {level : Level} {a : Nat}

/-- Ranges have both of their edges. -/
theorem ranges_eq_ok_iff : ranges es = .ok rs ↔ es = rs.map LevelRange.edges := by
  constructor
  · intro h
    induction es generalizing rs with
    | nil =>
      obtain rfl := Except.ok.inj h
      rfl
    | cons e es ih =>
      rw [ranges] at h
      split at h
      · next start finish hstart hfinish =>
        split at h
        · next rest hrest =>
          obtain rfl := Except.ok.inj h
          rw [List.map_cons, ← ih hrest, LevelRange.edges, ← hstart, ← hfinish]
        · cases h
      · cases h
  · rintro rfl
    induction rs with
    | nil => rfl
    | cons r rs ih => rw [List.map_cons, LevelRange.edges, ranges, ih]

/-- Ranges are had if every level that has a marker has both. -/
theorem exists_ranges_iff : (∃ rs, ranges (edges symbols) = .ok rs) ↔ RangesClosed symbols := by
  obtain ⟨hnodup, hmarked⟩ := levels_edges symbols
  constructor
  · rintro ⟨rs, hrs⟩ level edge a hmarks edge'
    rw [ranges_eq_ok_iff] at hrs
    obtain ⟨_, ha⟩ := Option.isSome_iff_exists.mp (isSome_edgeAt?_edges.mpr ⟨a, hmarks⟩)
    obtain ⟨e, he, rfl, -⟩ := exists_of_edgeAt? ha
    rw [← isSome_edgeAt?_edges, edgeAt?_of_mem hnodup he]
    obtain ⟨r, -, rfl⟩ := List.mem_map.mp (hrs ▸ he)
    cases edge' <;> rfl
  · intro hclosed
    cases hrs : ranges (edges symbols) with
    | ok rs => exact ⟨rs, rfl⟩
    | error fault =>
      have hgives := ranges_gives (edges symbols)
      rw [hrs, gives_error_iff] at hgives
      obtain ⟨e, he, hmissing, -⟩ := hgives
      obtain ⟨edge, a, hmarks⟩ := hmarked e he
      have hknown (edge' : Edge) : (e.at? edge').isSome = true := by
        rw [← edgeAt?_of_mem hnodup he]
        exact isSome_edgeAt?_edges.mpr (hclosed e.level edge a hmarks edge')
      rcases hmissing with hstart | hfinish
      · have h := hknown .start
        rw [Edges.at?, hstart] at h
        cases h
      · have h := hknown .finish
        rw [Edges.at?, hfinish] at h
        cases h

/-- Ranges start and end where the symbols say. -/
theorem marks_of_mem_ranges (hrs : ranges (edges symbols) = .ok rs) {r : LevelRange} (hr : r ∈ rs) :
    Marks symbols r.level .start r.start ∧ Marks symbols r.level .finish r.finish := by
  rw [ranges_eq_ok_iff] at hrs
  have hmem : r.edges ∈ edges symbols := hrs ▸ List.mem_map_of_mem hr
  have hat := edgeAt?_of_mem (levels_edges symbols).1 hmem
  exact ⟨of_edgeAt?_edges (hat .start), of_edgeAt?_edges (hat .finish)⟩

theorem exists_range (hmarkers : MarkersApart symbols) (hrs : ranges (edges symbols) = .ok rs)
    {start finish : Nat} (hstart : Marks symbols level .start start)
    (hfinish : Marks symbols level .finish finish) : ⟨level, start, finish⟩ ∈ rs := by
  rw [ranges_eq_ok_iff] at hrs
  have hat := (edgeAt?_edges_iff hmarkers).mpr hstart
  obtain ⟨e, he, rfl, -⟩ := exists_of_edgeAt? hat
  obtain ⟨r, hr, rfl⟩ := List.mem_map.mp (hrs ▸ he)
  have hmem := edgeAt?_of_mem (levels_edges symbols).1 he
  have hstart' := (hmem .start).symm.trans hat
  have hfinish' := (hmem .finish).symm.trans ((edgeAt?_edges_iff hmarkers).mpr hfinish)
  obtain rfl := Option.some.inj hstart'
  obtain rfl := Option.some.inj hfinish'
  exact hr

/-- The level of an address is that of the range that it is in. -/
theorem levelAt?_eq_some_iff (hmarkers : MarkersApart symbols)
    (hrs : ranges (edges symbols) = .ok rs) :
    levelAt? a rs = some level ↔ InRange symbols level a := by
  have hsound {level' : Level} (h : levelAt? a rs = some level') : InRange symbols level' a := by
    obtain ⟨r, hr, rfl⟩ := Option.map_eq_some_iff.mp h
    have hin := List.find?_some hr
    rw [Bool.and_eq_true, decide_eq_true_eq, decide_eq_true_eq] at hin
    have hmem : r ∈ rs := List.mem_reverse.mp (List.mem_of_find?_eq_some hr)
    obtain ⟨hstart, hfinish⟩ := marks_of_mem_ranges hrs hmem
    exact ⟨r.start, r.finish, hstart, hfinish, hin⟩
  refine ⟨hsound, fun h => ?_⟩
  obtain ⟨start, finish, hstart, hfinish, hin⟩ := h
  have hmem := exists_range hmarkers hrs hstart hfinish
  have hsome : (levelAt? a rs).isSome = true := by
    rw [levelAt?, Option.isSome_map, List.find?_isSome]
    exact ⟨_, List.mem_reverse.mpr hmem, by simpa using hin⟩
  obtain ⟨level', hlevel'⟩ := Option.isSome_iff_exists.mp hsome
  rw [hlevel', hmarkers.disjoint level' level a (hsound hlevel') ⟨start, finish, hstart, hfinish, hin⟩]

end

end DeferredLog.SymbolLayout
