import DeferredLog.Proofs.Table.Walk

/-!
# Tables of given entries

A table of entries holds these entries and no others. Two of one index are refused, and so is a
timestamp format that is none of them; nothing else is:

    ofEntries entries version timestamp maxDepth = .ok t →
      (e ∈ t.entries ↔ e ∈ entries)                                   (mem_entries_of_ofEntries)
    indices distinct → timestamp among them →
      ∃ t, ofEntries entries version timestamp maxDepth = .ok t               (exists_ofEntries)

The entries of a table are in the order of their indices, so entries that are given in that order are the
table's entries as they stand (`entries_of_ofEntries`). What is neither index nor format does not matter
for whether there is a table (`ofEntries_map`).
-/

namespace DeferredLog

namespace EntryMap

variable {m m' : EntryMap} {es : List Entry} {e : Entry} {i : Nat}

theorem getElem?_insert (m : EntryMap) (e : Entry) (i : Nat) :
    (m.insert e).map[i]? = if e.index = i then some e else m.map[i]? := by
  show (m.map.insert e.index e)[i]? = _
  rw [Std.TreeMap.getElem?_insert]
  simp only [Std.LawfulEqCmp.compare_eq_iff_eq]

/-- Entering entries adds these and leaves what was there. -/
theorem getElem?_of_insertAll (h : m.insertAll es = .ok m') :
    m'.map[i]? = some e ↔ m.map[i]? = some e ∨ (e ∈ es ∧ e.index = i) := by
  induction es generalizing m with
  | nil =>
    obtain rfl := Except.ok.inj h
    simp
  | cons x es ih =>
    rw [insertAll] at h
    cases hx : m.map[x.index]? with
    | some first =>
      rw [hx] at h
      cases h
    | none =>
      rw [hx] at h
      rw [ih h, getElem?_insert, List.mem_cons]
      by_cases hi : x.index = i
      · subst hi
        rw [if_pos rfl, hx]
        constructor
        · rintro (hxe | ⟨he, hindex⟩)
          · exact .inr ⟨.inl (Option.some.inj hxe).symm, by rw [Option.some.inj hxe]⟩
          · exact .inr ⟨.inr he, hindex⟩
        · rintro (hnone | ⟨rfl | he, hindex⟩)
          · cases hnone
          · exact .inl rfl
          · exact .inr ⟨he, hindex⟩
      · rw [if_neg hi]
        refine or_congr_right (and_congr_left fun hindex => ⟨.inr, ?_⟩)
        rintro (rfl | he)
        · exact absurd hindex hi
        · exact he

/-- Entries are refused only for an index that is taken. -/
theorem exists_of_insertAll_eq_error {cause : TableFault} (h : m.insertAll es = .error cause) :
    ∃ index first second, cause = .duplicateIndex index first second := by
  induction es generalizing m with
  | nil => cases h
  | cons x es ih =>
    rw [insertAll] at h
    cases hx : m.map[x.index]? with
    | some first =>
      rw [hx] at h
      exact ⟨_, _, _, (Except.error.inj h).symm⟩
    | none =>
      rw [hx] at h
      exact ih h

/-- Entries of distinct indices that are all new are entered. -/
theorem exists_insertAll (hnew : ∀ e ∈ es, m.map[e.index]? = none)
    (hnodup : (es.map Entry.index).Nodup) : ∃ m', m.insertAll es = .ok m' := by
  induction es generalizing m with
  | nil => exact ⟨m, rfl⟩
  | cons x es ih =>
    obtain ⟨hx, hes⟩ := List.nodup_cons.mp hnodup
    rw [insertAll, hnew x List.mem_cons_self]
    refine ih (fun e he => ?_) hes
    have hne : x.index ≠ e.index := fun heq => hx (heq ▸ List.mem_map_of_mem he)
    rw [getElem?_insert, if_neg hne]
    exact hnew e (List.mem_cons_of_mem _ he)

/-- Entries that are entered have distinct indices, all of them new. -/
theorem nodup_of_insertAll (h : m.insertAll es = .ok m') :
    (es.map Entry.index).Nodup ∧ ∀ e ∈ es, m.map[e.index]? = none := by
  induction es generalizing m with
  | nil => simp
  | cons x es ih =>
    rw [insertAll] at h
    cases hx : m.map[x.index]? with
    | some first =>
      rw [hx] at h
      cases h
    | none =>
      rw [hx] at h
      obtain ⟨hnodup, hnew⟩ := ih h
      have hrest : ∀ e ∈ es, x.index ≠ e.index ∧ m.map[e.index]? = none := by
        intro e he
        have hnone := hnew e he
        rw [getElem?_insert] at hnone
        split at hnone
        · cases hnone
        · next hne => exact ⟨hne, hnone⟩
      refine ⟨List.nodup_cons.mpr ⟨fun hmem => ?_, hnodup⟩, fun e he => ?_⟩
      · obtain ⟨e, he, hindex⟩ := List.mem_map.mp hmem
        exact (hrest e he).1 hindex.symm
      · rcases List.mem_cons.mp he with rfl | he
        · exact hx
        · exact (hrest e he).2

/-- Entries that are changed in neither index nor format are entered alike, or refused alike. -/
theorem insertAll_map {f : Entry → Entry} (hindex : ∀ e, (f e).index = e.index)
    (hformat : ∀ e, (f e).format = e.format) {n : EntryMap} (es : List Entry)
    (hm : ∀ i : Nat, n.map[i]? = (m.map[i]?).map f) :
    (∀ m', m.insertAll es = .ok m' →
      ∃ n', n.insertAll (es.map f) = .ok n' ∧ ∀ i : Nat, n'.map[i]? = (m'.map[i]?).map f) ∧
    ∀ cause, m.insertAll es = .error cause → n.insertAll (es.map f) = .error cause := by
  induction es generalizing m n with
  | nil =>
    refine ⟨fun m' h => ?_, fun _ h => by cases h⟩
    obtain rfl := Except.ok.inj h
    exact ⟨n, rfl, hm⟩
  | cons x es ih =>
    have hfirst : n.map[(f x).index]? = (m.map[x.index]?).map f := by rw [hindex, hm]
    rw [List.map_cons, insertAll, insertAll, hfirst]
    cases hx : m.map[x.index]? with
    | some first =>
      rw [Option.map_some]
      dsimp only
      refine ⟨fun m' h => (by cases h), fun cause h => ?_⟩
      obtain rfl := Except.error.inj h
      rw [hindex, hformat, hformat]
    | none =>
      rw [Option.map_none]
      dsimp only
      refine ih fun i => ?_
      rw [getElem?_insert, getElem?_insert, hindex, hm]
      by_cases hi : x.index = i
      · rw [if_pos hi, if_pos hi, Option.map_some]
      · rw [if_neg hi, if_neg hi]

end EntryMap

namespace Table

variable {t : Table} {entries : List Entry} {version : String} {timestamp : Option Nat}
  {maxDepth : Nat}

/-- A table of entries has them from the map that they are entered in, and what else it was given. -/
theorem parts_of_ofEntries (h : ofEntries entries version timestamp maxDepth = .ok t) :
    EntryMap.empty.insertAll entries = .ok t.entryMap ∧ t.version = version ∧
      t.maxDepth = maxDepth ∧ t.timestamp = timestamp := by
  rw [ofEntries] at h
  cases hm : EntryMap.empty.insertAll entries with
  | error cause =>
    rw [hm] at h
    cases h
  | ok m =>
    rw [hm] at h
    cases timestamp with
    | none =>
      obtain rfl := Except.ok.inj h
      exact ⟨rfl, rfl, rfl, rfl⟩
    | some i =>
      dsimp only at h
      split at h
      · obtain rfl := Except.ok.inj h
        exact ⟨rfl, rfl, rfl, rfl⟩
      · cases h

theorem mem_entries_of_ofEntries (h : ofEntries entries version timestamp maxDepth = .ok t)
    (e : Entry) : e ∈ t.entries ↔ e ∈ entries := by
  rw [mem_entries_iff, entry?, EntryMap.getElem?_of_insertAll (parts_of_ofEntries h).1]
  simp [EntryMap.empty]

/-- Why entries make no table: an index that is taken, or a timestamp format that is not among them. -/
theorem exists_of_ofEntries_eq_error {cause : TableFault}
    (h : ofEntries entries version timestamp maxDepth = .error cause) :
    (∃ index first second, cause = .duplicateIndex index first second) ∨
      ∃ index, timestamp = some index ∧ (∀ e ∈ entries, e.index ≠ index) ∧
        cause = .unknownTimestamp index := by
  rw [ofEntries] at h
  cases hm : EntryMap.empty.insertAll entries with
  | error cause =>
    rw [hm] at h
    exact .inl (Except.error.inj h ▸ EntryMap.exists_of_insertAll_eq_error hm)
  | ok m =>
    rw [hm] at h
    cases timestamp with
    | none => cases h
    | some index =>
      dsimp only at h
      split at h
      · cases h
      · next hnone =>
        refine .inr ⟨index, rfl, fun e he hindex => hnone ?_, (Except.error.inj h).symm⟩
        rw [(EntryMap.getElem?_of_insertAll hm).mpr (.inr ⟨he, hindex⟩)]
        rfl

/-- Entries of distinct indices make a table if the timestamp format is one of them. -/
theorem exists_ofEntries (hnodup : (entries.map Entry.index).Nodup)
    (hstamp : ∀ i, timestamp = some i → ∃ e ∈ entries, e.index = i) :
    ∃ t, ofEntries entries version timestamp maxDepth = .ok t := by
  obtain ⟨m, hm⟩ := EntryMap.exists_insertAll (m := EntryMap.empty) (by simp [EntryMap.empty]) hnodup
  cases timestamp with
  | none => exact ⟨_, by rw [ofEntries, hm]⟩
  | some i =>
    obtain ⟨e, he, rfl⟩ := hstamp i rfl
    have hfound : m.map[e.index]?.isSome = true := by
      rw [(EntryMap.getElem?_of_insertAll hm).mpr (.inr ⟨he, rfl⟩)]
      rfl
    exact ⟨_, by rw [ofEntries, hm]; exact dif_pos hfound⟩

/-! ## Entries in order -/

theorem map_index_entries (t : Table) : t.entries.map Entry.index = t.indices := by
  rw [entries_eq, indices, ← Std.TreeMap.map_fst_toList_eq_keys, List.map_map]
  apply List.map_congr_left
  intro p hp
  have hentry : t.entryMap.map[p.1]? = some p.2 := Std.TreeMap.mem_toList_iff_getElem?_eq_some.mp hp
  exact t.entryMap.index_eq p.1 p.2 hentry

theorem indices_increasing (t : Table) : t.indices.Pairwise (· < ·) :=
  Std.TreeMap.ordered_keys.imp Nat.compare_eq_lt.mp

theorem entries_increasing (t : Table) : t.entries.Pairwise fun a b => a.index < b.index := by
  have h := t.indices_increasing
  rwa [← map_index_entries, List.pairwise_map] at h

/-- An index is that of one entry. -/
theorem eq_of_index_eq {e e' : Entry} (he : e ∈ t.entries) (he' : e' ∈ t.entries)
    (h : e.index = e'.index) : e = e' := by
  have hentry : t.entry? e.index = some e := mem_entries_iff.mp he
  rw [h, mem_entries_iff.mp he'] at hentry
  exact (Option.some.inj hentry).symm

/-- What is had under an index is determined by the entries. -/
theorem entry?_congr {t' : Table} (h : t'.entries = t.entries) (i : Nat) : t'.entry? i = t.entry? i := by
  have hfound {t t' : Table} (h : t'.entries = t.entries) {e : Entry} (he : t.entry? i = some e) :
      t'.entry? i = some e := by
    obtain rfl := t.entryMap.index_eq i e he
    rw [← mem_entries_iff, h]
    exact mem_entries_iff.mpr he
  exact Option.ext fun e => ⟨hfound h.symm, hfound h⟩

/-- The entries of a table are determined by which they are. -/
theorem entries_eq_of_mem_iff {es : List Entry} (hmem : ∀ e, e ∈ t.entries ↔ e ∈ es)
    (hincreasing : es.Pairwise fun a b => a.index < b.index) : t.entries = es := by
  have hdistinct {es : List Entry} (hes : es.Pairwise fun a b => a.index < b.index) : es.Nodup :=
    hes.imp fun hlt heq => by rw [heq] at hlt; exact Nat.lt_irrefl _ hlt
  have hperm : t.entries.Perm es :=
    (List.perm_ext_iff_of_nodup (hdistinct t.entries_increasing) (hdistinct hincreasing)).mpr hmem
  refine hperm.eq_of_pairwise (fun a b _ _ hab hba => ?_) t.entries_increasing hincreasing
  exact absurd (Nat.lt_trans hab hba) (Nat.lt_irrefl _)

/-- Entries that are given in the order of their indices are the entries of the table. -/
theorem entries_of_ofEntries (h : ofEntries entries version timestamp maxDepth = .ok t)
    (hincreasing : entries.Pairwise fun a b => a.index < b.index) : t.entries = entries :=
  entries_eq_of_mem_iff (mem_entries_of_ofEntries h) hincreasing

/-- The entries of a table are those it was made of, in another order. -/
theorem perm_of_ofEntries (h : ofEntries entries version timestamp maxDepth = .ok t) :
    t.entries.Perm entries := by
  have hnodup : (entries.map Entry.index).Nodup :=
    (EntryMap.nodup_of_insertAll (parts_of_ofEntries h).1).1
  have hdistinct : t.entries.Nodup :=
    t.entries_increasing.imp fun hlt heq => by rw [heq] at hlt; exact Nat.lt_irrefl _ hlt
  exact (List.perm_ext_iff_of_nodup hdistinct hnodup.of_map).mpr (mem_entries_of_ofEntries h)

/-- Entries that are changed in neither index nor format make a table of the changed entries, or no table
for the same reason. -/
theorem ofEntries_map {f : Entry → Entry} (hindex : ∀ e, (f e).index = e.index)
    (hformat : ∀ e, (f e).format = e.format) (entries : List Entry) (version : String)
    (timestamp : Option Nat) (maxDepth : Nat) :
    (∀ t, ofEntries entries version timestamp maxDepth = .ok t →
      ∃ t', ofEntries (entries.map f) version timestamp maxDepth = .ok t' ∧
        t'.entries = t.entries.map f) ∧
    ∀ cause, ofEntries entries version timestamp maxDepth = .error cause →
      ofEntries (entries.map f) version timestamp maxDepth = .error cause := by
  have hinsert := EntryMap.insertAll_map hindex hformat (m := .empty) (n := .empty) entries
    (by simp [EntryMap.empty])
  constructor
  · intro t ht
    obtain ⟨hparts, -, -, hstamp⟩ := parts_of_ofEntries ht
    obtain ⟨n, hn, hmap⟩ := hinsert.1 _ hparts
    have hexists : ∃ t', ofEntries (entries.map f) version timestamp maxDepth = .ok t' := by
      cases timestamp with
      | none => exact ⟨_, by rw [ofEntries, hn]⟩
      | some i =>
        have hfound : n.map[i]?.isSome = true := by
          rw [hmap, Option.isSome_map]
          exact t.timestamp_mem i hstamp
        exact ⟨_, by rw [ofEntries, hn]; exact dif_pos hfound⟩
    obtain ⟨t', ht'⟩ := hexists
    refine ⟨t', ht', entries_eq_of_mem_iff (fun e => ?_) ?_⟩
    · rw [mem_entries_of_ofEntries ht', List.mem_map, List.mem_map]
      simp only [mem_entries_of_ofEntries ht]
    · rw [List.pairwise_map]
      simpa only [hindex] using t.entries_increasing
  · intro cause h
    rw [ofEntries] at h ⊢
    cases hm : EntryMap.empty.insertAll entries with
    | error first =>
      rw [hm] at h
      obtain rfl := Except.error.inj h
      rw [hinsert.2 _ hm]
    | ok m =>
      obtain ⟨n, hn, hmap⟩ := hinsert.1 _ hm
      rw [hm] at h
      rw [hn]
      cases timestamp with
      | none => cases h
      | some i =>
        dsimp only at h ⊢
        have hsame : n.map[i]?.isSome = m.map[i]?.isSome := by rw [hmap, Option.isSome_map]
        split at h
        · cases h
        · next hnone => rw [dif_neg (by rwa [hsame]), Except.error.inj h]

end Table

end DeferredLog
