import DeferredLog.Proofs.FormatString.Merging
import Mathlib.Data.List.Dedup
import Mathlib.Data.Set.List

/-!
# From directives to arguments

Which arguments a format string has follows from its directives alone, whatever their order: one for
every position, whose type all directives on the position share, or the hull of their bit ranges.
`Collects` says so without slots. Entering directives one after the other comes to the same:

    (∃ slots, enterAll [] ds = .ok slots ∧ slots.arguments = .ok arguments) ↔ Collects ds arguments
                                                                                    (collects_iff)
    (∃ arguments, Collects ds arguments) ↔ no position below the number of positions is left out and
      all directives on one position go together                              (exists_collects_iff)
-/

namespace DeferredLog

/-! ## Types of one position -/

/-- Two directives may stand on one position: their types are the same, or bit ranges of one backing
integer. -/
inductive ArgType.GoesWith : ArgType → ArgType → Prop
  | same (type : ArgType) : GoesWith type type
  | ranges {a b : BitRange} : b.backing = a.backing → GoesWith (.bitfield a) (.bitfield b)

/-- What the types on one position make together. -/
inductive ArgType.IsMergeOf : ArgType → List ArgType → Prop
  | same {type : ArgType} {types : List ArgType} : (∀ r, type ≠ .bitfield r) → types ≠ [] →
      (∀ t ∈ types, t = type) → IsMergeOf type types
  | hull {hull : BitRange} {ranges : List BitRange} {types : List ArgType} :
      types = ranges.map .bitfield → hull.IsHull ranges → IsMergeOf (.bitfield hull) types

namespace ArgType

variable {a b slot slot' type : ArgType} {types others : List ArgType}

theorem isMergeOf_singleton (type : ArgType) : type.IsMergeOf [type] := by
  by_cases h : ∃ r, type = .bitfield r
  · obtain ⟨r, rfl⟩ := h
    exact .hull (show [bitfield r] = [r].map .bitfield from rfl) r.isHull_singleton
  · exact .same (fun r hr => h ⟨r, hr⟩) (List.cons_ne_nil _ _) fun _ => List.mem_singleton.mp

theorem IsMergeOf.ne_nil (h : slot.IsMergeOf types) : types ≠ [] := by
  cases h with
  | same _ hne _ => exact hne
  | hull htypes hhull =>
    rw [htypes, ne_eq, List.map_eq_nil_iff]
    exact hhull.ne_nil

/-- Types make one type at most. -/
theorem IsMergeOf.unique (h : slot.IsMergeOf types) (h' : slot'.IsMergeOf types) : slot = slot' := by
  obtain ⟨t, ht⟩ := List.exists_mem_of_ne_nil types h.ne_nil
  cases h with
  | same hflat _ hall =>
    cases h' with
    | same _ _ hall' => exact (hall t ht).symm.trans (hall' t ht)
    | hull htypes' _ =>
      obtain ⟨r, -, hr⟩ := List.mem_map.mp (htypes' ▸ ht)
      exact absurd (hr.trans (hall t ht)).symm (hflat r)
  | hull htypes hhull =>
    cases h' with
    | same hflat' _ hall' =>
      obtain ⟨r, -, hr⟩ := List.mem_map.mp (htypes ▸ ht)
      exact absurd (hr.trans (hall' t ht)).symm (hflat' r)
    | hull htypes' hhull' =>
      have hranges := List.map_injective_iff.mpr (fun _ _ => ArgType.bitfield.inj)
        (htypes.symm.trans htypes')
      rw [hhull.unique (hranges ▸ hhull')]

/-- The order of the types does not matter. -/
theorem IsMergeOf.perm (h : slot.IsMergeOf types) (hperm : types.Perm others) :
    slot.IsMergeOf others := by
  cases h with
  | same hflat hne hall =>
    refine .same hflat ?_ fun t ht => hall t (hperm.mem_iff.mpr ht)
    rintro rfl
    exact hne hperm.eq_nil
  | hull htypes hhull =>
    obtain ⟨ranges, rfl, hranges⟩ := exists_map_of_perm (htypes ▸ hperm.symm)
    exact .hull rfl (hhull.perm hranges.symm)

/-- Types that make one type go together. -/
theorem IsMergeOf.goesWith (h : slot.IsMergeOf types) (ha : a ∈ types) (hb : b ∈ types) :
    a.GoesWith b := by
  cases h with
  | same _ _ hall =>
    rw [hall a ha, hall b hb]
    exact .same slot
  | hull htypes hhull =>
    subst htypes
    obtain ⟨r, hr, rfl⟩ := List.mem_map.mp ha
    obtain ⟨s, hs, rfl⟩ := List.mem_map.mp hb
    exact .ranges ((hhull.backing s hs).trans (hhull.backing r hr).symm)

/-- Types that go together make one type. -/
theorem exists_isMergeOf (hne : types ≠ []) (h : ∀ a ∈ types, ∀ b ∈ types, a.GoesWith b) :
    ∃ slot : ArgType, slot.IsMergeOf types := by
  obtain ⟨first, hfirst⟩ := List.exists_mem_of_ne_nil types hne
  by_cases hrange : ∃ r, first = .bitfield r
  · obtain ⟨r, rfl⟩ := hrange
    have hall : ∀ t ∈ types, ∃ s : BitRange, .bitfield s = t ∧ s.backing = r.backing := by
      intro t ht
      cases h _ hfirst t ht with
      | same => exact ⟨r, rfl, rfl⟩
      | ranges hbacking => exact ⟨_, rfl, hbacking⟩
    obtain ⟨ranges, rfl⟩ : types ∈ Set.range (List.map ArgType.bitfield) := by
      rw [Set.range_list_map]
      exact fun t ht => (hall t ht).imp fun s hs => hs.1
    have hranges : ranges ≠ [] := by simpa using hne
    have hbackings : ∀ s ∈ ranges, s.backing = r.backing := by
      intro s hs
      obtain ⟨s', hs', hbacking⟩ := hall _ (List.mem_map_of_mem hs)
      exact ArgType.bitfield.inj hs' ▸ hbacking
    obtain ⟨hull, hhull⟩ := Slots.exists_isHull hranges hbackings
    exact ⟨_, .hull rfl hhull⟩
  · refine ⟨first, .same (fun r hr => hrange ⟨r, hr⟩) hne fun t ht => ?_⟩
    cases h first hfirst t ht with
    | same => rfl
    | ranges => exact absurd ⟨_, rfl⟩ hrange

end ArgType

/-! ## Merging step by step -/

namespace Slots

variable {q : Nat} {a b merged slot : ArgType} {slot? : Option ArgType} {types seen : List ArgType}
  {ds ds' : List Directive} {slots : Slots} {arguments arguments' : List ArgType}

theorem merge_eq_ok_iff :
    merge q a b = .ok merged ↔ (a = b ∧ merged = a) ∨ ∃ (r s : BitRange) (h : s.backing = r.backing),
      a = .bitfield r ∧ b = .bitfield s ∧ merged = .bitfield (r.join s h) := by
  constructor
  · intro h
    unfold merge at h
    split at h
    · next heq => exact .inl ⟨heq, (Except.ok.inj h).symm⟩
    · split at h
      · split at h
        · next hbacking => exact .inr ⟨_, _, hbacking, rfl, rfl, (Except.ok.inj h).symm⟩
        · cases h
      · cases h
  · rintro (⟨rfl, rfl⟩ | ⟨r, s, hbacking, rfl, rfl, rfl⟩)
    · exact if_pos rfl
    · exact merge_bitfield q hbacking

/-- One more type. -/
theorem isMergeOf_of_merge (h : slot.IsMergeOf seen) (hmerge : merge q slot a = .ok merged) :
    merged.IsMergeOf (seen ++ [a]) := by
  rcases merge_eq_ok_iff.mp hmerge with ⟨rfl, rfl⟩ | ⟨r, s, hbacking, rfl, rfl, rfl⟩
  · cases h with
    | same hflat _ hall =>
      refine .same hflat (by simp) fun t ht => ?_
      rcases List.mem_append.mp ht with ht | ht
      · exact hall t ht
      · exact List.mem_singleton.mp ht
    | @hull hull ranges _ htypes hhull =>
      have hjoin := hhull.join (r := hull) rfl
      rw [BitRange.join_self] at hjoin
      exact .hull (by rw [htypes, List.map_append]; rfl) hjoin
  · cases h with
    | same hflat _ _ => exact absurd rfl (hflat r)
    | hull htypes hhull => exact .hull (by rw [htypes, List.map_append]; rfl) (hhull.join hbacking)

/-- Any number of further types. -/
theorem exists_of_mergeAll (h : slot.IsMergeOf seen) (hmerge : mergeAll q (some slot) types = .ok slot?) :
    ∃ merged : ArgType, slot? = some merged ∧ merged.IsMergeOf (seen ++ types) := by
  induction types generalizing slot seen with
  | nil => exact ⟨slot, (Except.ok.inj hmerge).symm, by rwa [List.append_nil]⟩
  | cons type types ih =>
    rw [mergeAll, mergeInto] at hmerge
    cases hstep : merge q slot type with
    | error e =>
      rw [hstep] at hmerge
      cases hmerge
    | ok merged =>
      rw [hstep] at hmerge
      have hrest := ih (isMergeOf_of_merge h hstep) hmerge
      rwa [List.append_assoc] at hrest

theorem mergeAll_same (q : Nat) (h : ∀ t ∈ types, t = slot) :
    mergeAll q (some slot) types = .ok (some slot) := by
  induction types with
  | nil => rfl
  | cons type types ih =>
    have htype : type = slot := h type List.mem_cons_self
    have hstep : merge q slot type = .ok slot := merge_eq_ok_iff.mpr (.inl ⟨htype.symm, rfl⟩)
    rw [mergeAll, mergeInto, hstep]
    exact ih fun t ht => h t (List.mem_cons_of_mem _ ht)

/-- What merging types one after the other comes to. -/
theorem mergeAll_eq_ok_iff :
    mergeAll q none types = .ok slot? ↔
      match slot? with
      | none => types = []
      | some slot => slot.IsMergeOf types := by
  constructor
  · intro h
    cases types with
    | nil =>
      obtain rfl := Except.ok.inj h
      rfl
    | cons type types =>
      obtain ⟨merged, rfl, hmerged⟩ := exists_of_mergeAll (ArgType.isMergeOf_singleton type) h
      exact hmerged
  · intro h
    cases slot? with
    | none =>
      obtain rfl : types = [] := h
      rfl
    | some slot =>
      cases (h : slot.IsMergeOf types) with
      | hull htypes hhull => exact mergeAll_bitfields hhull (.of_eq htypes)
      | same _ hne hall =>
        obtain ⟨first, rest, rfl⟩ := List.exists_cons_of_ne_nil hne
        rw [hall first List.mem_cons_self]
        exact mergeAll_same q fun t ht => hall t (List.mem_cons_of_mem _ ht)

/-! ## All positions -/

theorem mem_typesAt_iff : a ∈ typesAt q ds ↔ ∃ d ∈ ds, d.position = q ∧ d.type = a := by
  simp only [typesAt, List.mem_map, List.mem_filter, decide_eq_true_eq, and_assoc]

theorem typesAt_perm (h : ds.Perm ds') (q : Nat) : (typesAt q ds).Perm (typesAt q ds') :=
  (h.filter _).map _

/-- The arguments that directives ask for. -/
structure Collects (ds : List Directive) (arguments : List ArgType) : Prop where
  /-- There is one for each position in use. -/
  used : ∀ q, q < arguments.length ↔ ∃ d ∈ ds, d.position = q
  /-- It is what the directives on its position make of it. -/
  merged : ∀ q (slot : ArgType), arguments[q]? = some slot → slot.IsMergeOf (typesAt q ds)

namespace Collects

theorem unique (h : Collects ds arguments) (h' : Collects ds arguments') : arguments = arguments' := by
  have hlength : ∀ q, q < arguments.length ↔ q < arguments'.length :=
    fun q => (h.used q).trans (h'.used q).symm
  apply List.ext_getElem?
  intro q
  by_cases hq : q < arguments.length
  · have hq' := (hlength q).mp hq
    have hslot := h.merged q _ (List.getElem?_eq_getElem hq)
    have hslot' := h'.merged q _ (List.getElem?_eq_getElem hq')
    rw [List.getElem?_eq_getElem hq, List.getElem?_eq_getElem hq', hslot.unique hslot']
  · have hq' := mt (hlength q).mpr hq
    rw [List.getElem?_eq_none (by omega), List.getElem?_eq_none (by omega)]

/-- The order of the directives does not matter. -/
theorem perm (h : Collects ds arguments) (hperm : ds.Perm ds') : Collects ds' arguments where
  used q := by simpa only [hperm.mem_iff] using h.used q
  merged q slot hslot := (h.merged q slot hslot).perm (typesAt_perm hperm q)

/-- The slot of each directive. -/
theorem exists_slot {d : Directive} (h : Collects ds arguments) (hd : d ∈ ds) :
    ∃ slot : ArgType, arguments[d.position]? = some slot ∧ slot.IsMergeOf (typesAt d.position ds) := by
  have hlt := (h.used d.position).mpr ⟨d, hd, rfl⟩
  exact ⟨_, List.getElem?_eq_getElem hlt, h.merged _ _ (List.getElem?_eq_getElem hlt)⟩

/-- Every position has the merged slot that its own types make, also where nothing stands. -/
theorem mergeAll (h : Collects ds arguments) (q : Nat) :
    mergeAll q none (typesAt q ds) = .ok arguments[q]? := by
  rw [mergeAll_eq_ok_iff]
  cases hslot : arguments[q]? with
  | some slot => exact h.merged q slot hslot
  | none =>
    refine typesAt_eq_nil_iff.mpr fun d hd hq => ?_
    have hlt := (h.used q).mpr ⟨d, hd, hq⟩
    rw [List.getElem?_eq_getElem hlt] at hslot
    cases hslot

theorem gapless (h : Collects ds arguments) : Gapless ds := by
  intro d hd q hq
  have hlt := (h.used d.position).mpr ⟨d, hd, rfl⟩
  exact (h.used q).mp (Nat.lt_trans hq hlt)

end Collects

theorem collects_of_enterAll (hslots : enterAll [] ds = .ok slots)
    (harguments : slots.arguments = .ok arguments) : Collects ds arguments := by
  have hmerge : ∀ q, match arguments[q]? with
      | none => typesAt q ds = []
      | some slot => slot.IsMergeOf (typesAt q ds) := by
    intro q
    rw [← (lookup_eq_arguments harguments).2 q, ← mergeAll_eq_ok_iff]
    exact mergeAll_of_enterAll hslots q
  constructor
  · intro q
    have hq := hmerge q
    cases hslot : arguments[q]? with
    | none =>
      rw [hslot, typesAt_eq_nil_iff] at hq
      have hge := List.getElem?_eq_none_iff.mp hslot
      refine ⟨fun hlt => by omega, ?_⟩
      rintro ⟨d, hd, rfl⟩
      exact absurd rfl (hq d hd)
    | some slot =>
      rw [hslot] at hq
      obtain ⟨t, ht⟩ := List.exists_mem_of_ne_nil _ (ArgType.IsMergeOf.ne_nil hq)
      obtain ⟨d, hd, hposition, -⟩ := mem_typesAt_iff.mp ht
      have hlt : q < arguments.length := (List.getElem?_eq_some_iff.mp hslot).1
      exact ⟨fun _ => ⟨d, hd, hposition⟩, fun _ => hlt⟩
  · intro q slot hslot
    have hq := hmerge q
    rwa [hslot] at hq

/-- Entering directives one after the other collects their arguments. -/
theorem collects_iff :
    (∃ slots, enterAll [] ds = .ok slots ∧ slots.arguments = .ok arguments) ↔
      Collects ds arguments := by
  constructor
  · rintro ⟨slots, hslots, harguments⟩
    exact collects_of_enterAll hslots harguments
  · intro h
    obtain ⟨slots, hslots⟩ : ∃ slots, enterAll [] ds = .ok slots :=
      exists_enterAll fun q => ⟨_, h.mergeAll q⟩
    obtain ⟨ts, hts⟩ := exists_arguments hslots h.gapless
    exact ⟨slots, hslots, h.unique (collects_of_enterAll hslots hts) ▸ hts⟩

/-! ## When there are arguments -/

/-- The number of positions that directives use. -/
def positionCount (ds : List Directive) : Nat := (ds.map Directive.position).dedup.length

theorem positionCount_of_used {n : Nat} (h : ∀ q, q < n ↔ ∃ d ∈ ds, d.position = q) :
    positionCount ds = n := by
  have hperm : (ds.map Directive.position).dedup.Perm (List.range n) := by
    rw [List.perm_ext_iff_of_nodup (List.nodup_dedup _) List.nodup_range]
    intro q
    rw [List.mem_dedup, List.mem_map, List.mem_range, h]
  rw [positionCount, hperm.length_eq, List.length_range]

/-- If the positions below their number are in use, no others are. -/
theorem used_of_positionCount (h : ∀ q < positionCount ds, ∃ d ∈ ds, d.position = q) (q : Nat) :
    q < positionCount ds ↔ ∃ d ∈ ds, d.position = q := by
  have hsubset : List.range (positionCount ds) ⊆ (ds.map Directive.position).dedup := by
    intro q hq
    rw [List.mem_dedup, List.mem_map]
    exact h q (List.mem_range.mp hq)
  have hperm : (List.range (positionCount ds)).Perm (ds.map Directive.position).dedup :=
    (List.subperm_of_subset List.nodup_range hsubset).perm_of_length_le (by simp [positionCount])
  rw [← List.mem_range, hperm.mem_iff, List.mem_dedup, List.mem_map]

/-- Directives have arguments exactly if no position below the number of positions is left out and all
on one position go together. -/
theorem exists_collects_iff :
    (∃ arguments, Collects ds arguments) ↔
      (∀ q < positionCount ds, ∃ d ∈ ds, d.position = q) ∧
        ∀ d ∈ ds, ∀ d' ∈ ds, d.position = d'.position → d.type.GoesWith d'.type := by
  constructor
  · rintro ⟨arguments, h⟩
    refine ⟨fun q hq => (h.used q).mp (positionCount_of_used h.used ▸ hq), ?_⟩
    intro d hd d' hd' hposition
    obtain ⟨slot, -, hslot⟩ := h.exists_slot hd
    exact hslot.goesWith (mem_typesAt_iff.mpr ⟨d, hd, rfl, rfl⟩)
      (mem_typesAt_iff.mpr ⟨d', hd', hposition.symm, rfl⟩)
  · rintro ⟨hused, htypes⟩
    have hmerge : ∀ q, ∃ slot?, mergeAll q none (typesAt q ds) = .ok slot? := by
      intro q
      by_cases hq : typesAt q ds = []
      · exact ⟨none, mergeAll_eq_ok_iff.mpr hq⟩
      · obtain ⟨slot, hslot⟩ := ArgType.exists_isMergeOf hq fun a ha b hb => by
          obtain ⟨d, hd, hposition, rfl⟩ := mem_typesAt_iff.mp ha
          obtain ⟨d', hd', hposition', rfl⟩ := mem_typesAt_iff.mp hb
          exact htypes d hd d' hd' (hposition.trans hposition'.symm)
        exact ⟨some slot, mergeAll_eq_ok_iff.mpr hslot⟩
    have hgapless : Gapless ds := by
      intro d hd q hq
      have hlt := (used_of_positionCount hused d.position).mpr ⟨d, hd, rfl⟩
      exact hused q (Nat.lt_trans hq hlt)
    obtain ⟨slots, hslots⟩ : ∃ slots, enterAll [] ds = .ok slots := exists_enterAll hmerge
    obtain ⟨arguments, harguments⟩ := exists_arguments hslots hgapless
    exact ⟨arguments, collects_of_enterAll hslots harguments⟩

end Slots

end DeferredLog
