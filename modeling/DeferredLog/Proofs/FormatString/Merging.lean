import DeferredLog.Proofs.FormatString.Slots

/-!
# Merging the directives of one position

Directives are entered one after the other, but a position does not see what happens on the others:
its slot is what its own directives make of it, in text order. On a position that is used for bit
ranges only, the order does not matter either, and the slot is their hull.

    enterAll slots ds = .ok entered →
      mergeAll q (slots.lookup q) (typesAt q ds) = .ok (entered.lookup q)     (mergeAll_of_enterAll)
    (∀ q, mergeAll q (slots.lookup q) (typesAt q ds) succeeds) →
      enterAll slots ds succeeds                                             (exists_enterAll)
    ranges ≠ [] → of one backing integer → their slot is their hull             (mergeAll_bitfields)
-/

namespace DeferredLog

namespace Slots

variable {slots entered : Slots} {position q : Nat} {type t merged : ArgType} {slot? : Option ArgType}
  {types : List ArgType} {ds : List Directive} {e : FormatError}

/-! ## One position at a time -/

/-- The types of the directives on a position, in text order. -/
def typesAt (position : Nat) (ds : List Directive) : List ArgType :=
  (ds.filter fun d => d.position = position).map Directive.type

/-- What a directive makes of the slot of its position, if that has one yet. -/
def mergeInto (position : Nat) : Option ArgType → ArgType → Except FormatError ArgType
  | none, type => .ok type
  | some t, type => merge position t type

/-- What directives make of the slot of their position. -/
def mergeAll (position : Nat) (slot? : Option ArgType) :
    List ArgType → Except FormatError (Option ArgType)
  | [] => .ok slot?
  | type :: types =>
    match mergeInto position slot? type with
    | .ok merged => mergeAll position (some merged) types
    | .error e => .error e

theorem typesAt_cons_self (d : Directive) (ds : List Directive) :
    typesAt d.position (d :: ds) = d.type :: typesAt d.position ds := by
  rw [typesAt, List.filter_cons_of_pos (by simp)]
  rfl

theorem typesAt_cons_of_ne {d : Directive} (h : d.position ≠ q) (ds : List Directive) :
    typesAt q (d :: ds) = typesAt q ds := by
  rw [typesAt, List.filter_cons_of_neg (by simpa using h)]
  rfl

theorem typesAt_eq_nil_iff : typesAt q ds = [] ↔ ∀ d ∈ ds, d.position ≠ q := by
  simp only [typesAt, List.map_eq_nil_iff, List.filter_eq_nil_iff, decide_eq_true_eq]

/-- Leaving out the directives on one position leaves those on the others. -/
theorem typesAt_filter_ne (position : Nat) (ds : List Directive) :
    typesAt q (ds.filter fun d => d.position ≠ position) =
      if q = position then [] else typesAt q ds := by
  split
  · next heq =>
    rw [typesAt_eq_nil_iff, heq]
    intro d hd
    simpa using (List.mem_filter.mp hd).2
  · next hne =>
    rw [typesAt, List.filter_filter, typesAt]
    congr 1
    apply List.filter_congr
    intro d _
    by_cases hd : d.position = q
    · have : d.position ≠ position := fun h => hne (hd.symm.trans h)
      simp [hd, hne]
    · simp [hd]

/-- A directive that goes with the slot of its position changes that slot and no other. -/
theorem enter_of_mergeInto (h : mergeInto position (slots.lookup position) type = .ok merged) :
    ∃ entered, enter position type slots = .ok entered ∧
      ∀ q, entered.lookup q = if q = position then some merged else slots.lookup q := by
  induction slots with
  | nil =>
    obtain rfl := Except.ok.inj h
    exact ⟨_, rfl, fun q => lookup_cons position q type []⟩
  | cons slot rest ih =>
    obtain ⟨p, t⟩ := slot
    rw [lookup_cons] at h
    by_cases hp : p = position
    · rw [if_pos hp.symm] at h
      refine ⟨(p, merged) :: rest, ?_, fun q => ?_⟩
      · have hmerge : merge position t type = .ok merged := h
        rw [enter, if_pos hp, hmerge]
      · rw [lookup_cons, lookup_cons, hp]
        by_cases hq : q = position
        · rw [if_pos hq, if_pos hq]
        · rw [if_neg hq, if_neg hq, if_neg hq]
    · rw [if_neg (Ne.symm hp)] at h
      obtain ⟨entered, hentered, hlookup⟩ := ih h
      refine ⟨(p, t) :: entered, ?_, fun q => ?_⟩
      · rw [enter, if_neg hp, hentered]
      · rw [lookup_cons, lookup_cons, hlookup]
        by_cases hq : q = position
        · rw [if_pos hq, if_pos hq, if_neg (fun h => hp (h.symm.trans hq))]
        · rw [if_neg hq, if_neg hq]

/-- A directive that does not go with the slot of its position is refused for that reason. -/
theorem enter_of_mergeInto_error
    (h : mergeInto position (slots.lookup position) type = .error e) :
    enter position type slots = .error e := by
  induction slots with
  | nil => cases h
  | cons slot rest ih =>
    obtain ⟨p, t⟩ := slot
    rw [lookup_cons] at h
    by_cases hp : p = position
    · rw [if_pos hp.symm] at h
      have hmerge : merge position t type = .error e := h
      rw [enter, if_pos hp, hmerge]
    · rw [if_neg (Ne.symm hp)] at h
      rw [enter, if_neg hp, ih h]

/-- The slot of every position is what its own directives make of it. -/
theorem mergeAll_of_enterAll (h : enterAll slots ds = .ok entered) (q : Nat) :
    mergeAll q (slots.lookup q) (typesAt q ds) = .ok (entered.lookup q) := by
  induction ds generalizing slots with
  | nil =>
    obtain rfl := Except.ok.inj h
    rfl
  | cons d ds ih =>
    rw [enterAll] at h
    cases hmerge : mergeInto d.position (slots.lookup d.position) d.type with
    | error e =>
      rw [enter_of_mergeInto_error hmerge] at h
      cases h
    | ok merged =>
      obtain ⟨middle, hmiddle, hlookup⟩ := enter_of_mergeInto hmerge
      rw [hmiddle] at h
      have hrest := ih h
      rw [hlookup] at hrest
      by_cases hq : d.position = q
      · subst hq
        rw [if_pos rfl] at hrest
        rw [typesAt_cons_self, mergeAll, hmerge]
        exact hrest
      · rw [if_neg (Ne.symm hq)] at hrest
        rw [typesAt_cons_of_ne hq]
        exact hrest

/-- If the directives on each position go together, all of them can be entered. -/
theorem exists_enterAll
    (h : ∀ q, ∃ slot?, mergeAll q (slots.lookup q) (typesAt q ds) = .ok slot?) :
    ∃ entered, enterAll slots ds = .ok entered := by
  induction ds generalizing slots with
  | nil => exact ⟨slots, rfl⟩
  | cons d ds ih =>
    obtain ⟨slot?, hd⟩ := h d.position
    rw [typesAt_cons_self, mergeAll] at hd
    cases hmerge : mergeInto d.position (slots.lookup d.position) d.type with
    | error e =>
      rw [hmerge] at hd
      cases hd
    | ok merged =>
      rw [hmerge] at hd
      obtain ⟨middle, hmiddle, hlookup⟩ := enter_of_mergeInto hmerge
      rw [enterAll, hmiddle]
      apply ih
      intro q
      rw [hlookup]
      by_cases hq : q = d.position
      · rw [if_pos hq, hq]
        exact ⟨slot?, hd⟩
      · obtain ⟨other?, hother⟩ := h q
        rw [typesAt_cons_of_ne (Ne.symm hq)] at hother
        rw [if_neg hq]
        exact ⟨other?, hother⟩

/-! ## Slots in wire order -/

theorem isSome_lookup_iff : (slots.lookup q).isSome = true ↔ q ∈ slots.map Prod.fst := by
  constructor
  · intro h
    obtain ⟨t, ht⟩ := Option.isSome_iff_exists.mp h
    exact mem_keys_of_lookup ht
  · intro h
    rw [List.lookup_isSome_iff]
    obtain ⟨slot, hslot, rfl⟩ := List.mem_map.mp h
    exact ⟨slot, hslot, beq_self_eq_true slot.1⟩

/-- A position that is not yet in use is put last. -/
theorem keys_enter (h : enter position type slots = .ok entered) :
    entered.map Prod.fst =
      if position ∈ slots.map Prod.fst then slots.map Prod.fst
      else slots.map Prod.fst ++ [position] := by
  induction slots generalizing entered with
  | nil =>
    obtain rfl := Except.ok.inj h
    rfl
  | cons slot rest ih =>
    obtain ⟨p, t⟩ := slot
    rw [enter] at h
    by_cases hp : p = position
    · rw [if_pos hp] at h
      split at h
      · obtain rfl := Except.ok.inj h
        simp [hp]
      · cases h
    · rw [if_neg hp] at h
      split at h
      · next rest' hrest =>
        obtain rfl := Except.ok.inj h
        rw [List.map_cons, ih hrest, List.map_cons]
        by_cases hmem : position ∈ rest.map Prod.fst
        · rw [if_pos hmem, if_pos (List.mem_cons_of_mem _ hmem)]
        · have hnew : position ∉ p :: rest.map Prod.fst :=
            List.not_mem_cons_of_ne_of_not_mem (Ne.symm hp) hmem
          rw [if_neg hmem, if_neg hnew]
          rfl
      · cases h

/-- A position has one slot only. -/
theorem nodup_keys_of_enterAll (h : enterAll slots ds = .ok entered)
    (hslots : (slots.map Prod.fst).Nodup) : (entered.map Prod.fst).Nodup := by
  induction ds generalizing slots with
  | nil => exact Except.ok.inj h ▸ hslots
  | cons d ds ih =>
    rw [enterAll] at h
    split at h
    · next middle hmiddle =>
      apply ih h
      rw [keys_enter hmiddle]
      split
      · exact hslots
      · next hnew =>
        rw [List.nodup_append]
        refine ⟨hslots, by simp, fun p hp p' hp' heq => hnew ?_⟩
        rw [List.mem_singleton.mp hp'] at heq
        exact heq ▸ hp
    · cases h

theorem exists_typesFrom (first : Nat) {count : Nat}
    (h : ∀ i < count, (slots.lookup (first + i)).isSome = true) :
    ∃ ts, typesFrom slots first count = .ok ts := by
  induction count generalizing first with
  | zero => exact ⟨[], rfl⟩
  | succ count ih =>
    obtain ⟨t, ht⟩ := Option.isSome_iff_exists.mp (h 0 (by omega))
    obtain ⟨ts, hts⟩ := ih (first + 1) fun i hi => by
      have := h (i + 1) (by omega)
      rwa [show first + 1 + i = first + (i + 1) by omega]
    rw [Nat.add_zero] at ht
    refine ⟨t :: ts, ?_⟩
    rw [typesFrom, ht]
    dsimp only
    rw [hts]

/-- Directives leave no position out below one that they use. -/
def Gapless (ds : List Directive) : Prop :=
  ∀ d ∈ ds, ∀ q < d.position, ∃ d' ∈ ds, d'.position = q

/-- The slots of such directives are in wire order. -/
theorem exists_arguments (h : enterAll [] ds = .ok entered) (hgapless : Gapless ds) :
    ∃ ts, entered.arguments = .ok ts := by
  have hentered := entered_of_enterAll h
  have hkey : ∀ q, q ∈ entered.map Prod.fst ↔ ∃ d ∈ ds, d.position = q := by
    intro q
    rw [← isSome_lookup_iff]
    constructor
    · intro hq
      rcases hentered.used q hq with hnone | hd
      · cases hnone
      · exact hd
    · rintro ⟨d, hd, rfl⟩
      obtain ⟨t, ht, -⟩ := hentered.covered d hd
      rw [ht]
      rfl
  have hnodup := nodup_keys_of_enterAll h List.nodup_nil
  apply exists_typesFrom 0
  intro i hi
  rw [Nat.zero_add, isSome_lookup_iff]
  -- otherwise all positions in use lie below `i`, and there are more than `i` of them
  by_contra hunused
  have hbelow : entered.map Prod.fst ⊆ List.range i := by
    intro p hp
    rw [List.mem_range]
    by_contra hge
    obtain ⟨d, hd, hposition⟩ := (hkey p).mp hp
    by_cases heq : i = p
    · exact hunused (heq ▸ hp)
    · exact hunused ((hkey i).mpr (hgapless d hd i (by omega)))
  have hlength := (List.subperm_of_subset hnodup hbelow).length_le
  rw [List.length_map, List.length_range] at hlength
  omega

end Slots

/-! ## Bit ranges -/

/-- A range from the least low bit to the greatest high bit of some ranges of its backing integer. -/
structure BitRange.IsHull (hull : BitRange) (ranges : List BitRange) : Prop where
  backing : ∀ r ∈ ranges, r.backing = hull.backing
  low : (ranges.map BitRange.low).min? = some hull.low
  high : (ranges.map BitRange.high).max? = some hull.high

namespace BitRange

variable {a b hull r : BitRange} {ranges others : List BitRange}

theorem ext_bounds (hbacking : a.backing = b.backing) (hlow : a.low = b.low) (hhigh : a.high = b.high) :
    a = b := by
  cases a
  cases b
  simp only at hbacking hlow hhigh
  subst hbacking hlow hhigh
  rfl

theorem isHull_singleton (r : BitRange) : r.IsHull [r] :=
  ⟨by simp, rfl, rfl⟩

theorem IsHull.low_le (h : hull.IsHull ranges) (hr : r ∈ ranges) : hull.low ≤ r.low :=
  (List.min?_eq_some_iff.mp h.low).2 _ (List.mem_map_of_mem hr)

theorem IsHull.le_high (h : hull.IsHull ranges) (hr : r ∈ ranges) : r.high ≤ hull.high :=
  (List.max?_eq_some_iff.mp h.high).2 _ (List.mem_map_of_mem hr)

theorem IsHull.ne_nil (h : hull.IsHull ranges) : ranges ≠ [] := by
  intro hnil
  have := h.low
  simp [hnil] at this

/-- Ranges have one hull. -/
theorem IsHull.unique (ha : a.IsHull ranges) (hb : b.IsHull ranges) : a = b := by
  obtain ⟨r, hr⟩ := List.exists_mem_of_ne_nil _ ha.ne_nil
  have hbacking := (ha.backing r hr).symm.trans (hb.backing r hr)
  have hlow := Option.some.inj (ha.low.symm.trans hb.low)
  have hhigh := Option.some.inj (ha.high.symm.trans hb.high)
  exact ext_bounds hbacking hlow hhigh

/-- The order of the ranges does not matter. -/
theorem IsHull.perm (h : hull.IsHull ranges) (hperm : ranges.Perm others) : hull.IsHull others := by
  have hlow := List.min?_eq_some_iff.mp h.low
  have hhigh := List.max?_eq_some_iff.mp h.high
  refine ⟨fun r hr => h.backing r (hperm.mem_iff.mpr hr), ?_, ?_⟩
  · refine List.min?_eq_some_iff.mpr ⟨(hperm.map _).mem_iff.mp hlow.1, fun b hb => ?_⟩
    exact hlow.2 b ((hperm.map _).mem_iff.mpr hb)
  · refine List.max?_eq_some_iff.mpr ⟨(hperm.map _).mem_iff.mp hhigh.1, fun b hb => ?_⟩
    exact hhigh.2 b ((hperm.map _).mem_iff.mpr hb)

theorem min?_concat {ns : List Nat} {m : Nat} (h : ns.min? = some m) (n : Nat) :
    (ns ++ [n]).min? = some (min m n) := by
  cases ns with
  | nil => cases h
  | cons first ns =>
    rw [List.min?_cons'] at h
    rw [List.cons_append, List.min?_cons', List.foldl_append, Option.some.inj h]
    rfl

theorem max?_concat {ns : List Nat} {m : Nat} (h : ns.max? = some m) (n : Nat) :
    (ns ++ [n]).max? = some (max m n) := by
  cases ns with
  | nil => cases h
  | cons first ns =>
    rw [List.max?_cons'] at h
    rw [List.cons_append, List.max?_cons', List.foldl_append, Option.some.inj h]
    rfl

theorem IsHull.join (h : hull.IsHull ranges) (hr : r.backing = hull.backing) :
    (hull.join r hr).IsHull (ranges ++ [r]) := by
  refine ⟨fun s hs => ?_, ?_, ?_⟩
  · rcases List.mem_append.mp hs with hs | hs
    · exact h.backing s hs
    · exact List.mem_singleton.mp hs ▸ hr
  · rw [List.map_append]
    exact min?_concat h.low r.low
  · rw [List.map_append]
    exact max?_concat h.high r.high

/-- Joining a range with itself changes nothing. -/
theorem join_self (r : BitRange) : r.join r rfl = r :=
  ext_bounds rfl (Nat.min_self _) (Nat.max_self _)

end BitRange

/-- Values in another order are values in a row as well. -/
theorem exists_map_of_perm {α β : Type} {f : α → β} {ys : List β} {xs : List α}
    (h : ys.Perm (xs.map f)) : ∃ others : List α, ys = others.map f ∧ others.Perm xs := by
  have hcomp := congrFun (congrFun (List.eq_map_comp_perm f) ys) xs
  exact hcomp.mpr h

namespace Slots

variable {position : Nat} {hull a b : BitRange} {ranges others : List BitRange}

/-- Bit ranges of one backing integer are joined, also when they are the same. -/
theorem merge_bitfield (position : Nat) (h : b.backing = a.backing) :
    merge position (.bitfield a) (.bitfield b) = .ok (.bitfield (a.join b h)) := by
  rw [merge]
  split
  · next heq =>
    obtain rfl := ArgType.bitfield.inj heq
    rw [BitRange.join_self]
  · rfl

/-- Further bit ranges widen the hull of those before. -/
theorem mergeAll_hull (position : Nat) (h : hull.IsHull ranges)
    (hothers : ∀ r ∈ others, r.backing = hull.backing) :
    ∃ hull' : BitRange, hull'.IsHull (ranges ++ others) ∧
      mergeAll position (some (.bitfield hull)) (others.map .bitfield) =
        .ok (some (.bitfield hull')) := by
  induction others generalizing hull ranges with
  | nil => exact ⟨hull, by rwa [List.append_nil], rfl⟩
  | cons r others ih =>
    have hr : r.backing = hull.backing := hothers r List.mem_cons_self
    obtain ⟨hull', hhull', hmerge⟩ :=
      ih (h.join hr) fun s hs => hothers s (List.mem_cons_of_mem _ hs)
    refine ⟨hull', by rwa [List.append_assoc] at hhull', ?_⟩
    rw [List.map_cons, mergeAll, mergeInto, merge_bitfield position hr]
    exact hmerge

/-- Ranges of one backing integer have a hull. -/
theorem exists_isHull {backing : Backing} (hne : ranges ≠ [])
    (h : ∀ r ∈ ranges, r.backing = backing) : ∃ hull : BitRange, hull.IsHull ranges := by
  obtain ⟨first, others, rfl⟩ := List.exists_cons_of_ne_nil hne
  have hfirst : first.backing = backing := h first List.mem_cons_self
  obtain ⟨hull, hhull, -⟩ := mergeAll_hull 0 (BitRange.isHull_singleton first)
    fun r hr => (h r (List.mem_cons_of_mem _ hr)).trans hfirst.symm
  exact ⟨hull, hhull⟩

/-- Whatever order bit ranges come in, their slot is their hull. -/
theorem mergeAll_bitfields {types : List ArgType} (h : hull.IsHull ranges)
    (htypes : types.Perm (ranges.map .bitfield)) :
    mergeAll position none types = .ok (some (.bitfield hull)) := by
  obtain ⟨others, rfl, hperm⟩ := exists_map_of_perm htypes
  have hothers : hull.IsHull others := h.perm hperm.symm
  obtain ⟨first, others, rfl⟩ := List.exists_cons_of_ne_nil hothers.ne_nil
  have hfirst := hothers.backing first List.mem_cons_self
  obtain ⟨hull', hhull', hmerge⟩ := mergeAll_hull position (BitRange.isHull_singleton first)
    fun r hr => (hothers.backing r (List.mem_cons_of_mem _ hr)).trans hfirst.symm
  rw [hothers.unique hhull']
  exact hmerge

/-- Bit ranges of one backing integer can be entered in any order and between any directives that can be
entered without them, whose slots stay as they are. -/
theorem exists_enterAll_bitfields {ds : List Directive} {rest : Slots} (h : hull.IsHull ranges)
    (htypes : (typesAt position ds).Perm (ranges.map .bitfield))
    (hrest : enterAll [] (ds.filter fun d => d.position ≠ position) = .ok rest) :
    ∃ slots, enterAll [] ds = .ok slots ∧ slots.lookup position = some (.bitfield hull) ∧
      ∀ q ≠ position, slots.lookup q = rest.lookup q := by
  have hposition : mergeAll position none (typesAt position ds) = .ok (some (.bitfield hull)) :=
    mergeAll_bitfields h htypes
  have hother : ∀ q ≠ position, mergeAll q none (typesAt q ds) = .ok (rest.lookup q) := by
    intro q hq
    have hq' := mergeAll_of_enterAll hrest q
    rwa [typesAt_filter_ne, if_neg hq] at hq'
  have hall : ∀ q, ∃ slot?, mergeAll q (List.lookup q ([] : Slots)) (typesAt q ds) = .ok slot? := by
    intro q
    by_cases hq : q = position
    · exact ⟨_, hq ▸ hposition⟩
    · exact ⟨_, hother q hq⟩
  obtain ⟨slots, hslots⟩ := exists_enterAll hall
  have hlookup := mergeAll_of_enterAll hslots
  refine ⟨slots, hslots, ?_, fun q hq => ?_⟩
  · exact Except.ok.inj ((hlookup position).symm.trans hposition)
  · exact Except.ok.inj ((hlookup q).symm.trans (hother q hq))

end Slots

/-! ## Format strings -/

namespace FormatString

open Slots

variable {text : String} {f : FormatString}

/-- In a format string that is read, the slot of every position is what its directives make of it. -/
theorem mergeAll_of_parse (h : parse text = .ok f) (q : Nat) :
    mergeAll q none (typesAt q f.directives) = .ok f.arguments[q]? := by
  simp only [parse] at h
  split at h
  · cases h
  · next slots hslots =>
    split at h
    · cases h
    · split at h
      · next arguments harguments =>
        obtain rfl := Except.ok.inj h
        rw [directives_join, ← (lookup_eq_arguments harguments).2 q]
        exact mergeAll_of_enterAll hslots q
      · cases h

/-- The slot of a position that is used for bit ranges only is their hull. -/
theorem arguments_of_isHull {hull : BitRange} {ranges : List BitRange} {position : Nat}
    (h : parse text = .ok f) (hhull : hull.IsHull ranges)
    (htypes : (typesAt position f.directives).Perm (ranges.map .bitfield)) :
    f.arguments[position]? = some (.bitfield hull) := by
  have hslot := mergeAll_of_parse h position
  rw [mergeAll_bitfields hhull htypes] at hslot
  exact (Except.ok.inj hslot).symm

end FormatString

end DeferredLog
