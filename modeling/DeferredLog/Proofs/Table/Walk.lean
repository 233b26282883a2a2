import DeferredLog.Table.Formats
import Mathlib.Data.List.Nodup
import Mathlib.Logic.Relation

/-!
# Usable entries

An entry is usable if its format can be read and every entry that it fixes by `@N` is usable too. No
such entry leads back to itself. The walk without a memory finds exactly these entries:

    t.freshFormat i = .ok f ↔ t.readAt i = .ok f ∧ t.Usable i               (freshFormat_eq_ok_iff)

`Trail` is what holds of the path of a walk at any time. It bounds the path by the size of the table, so
the walk never runs out of steps. If all formats are texts, the walk fails only with decoding faults
(`isDecodingFault_of_freshFormat`).
-/

namespace DeferredLog

namespace Table

/-- Every format is a text, as in every table that a firmware image yields. -/
def HasTextFormats (t : Table) : Prop :=
  ∀ i e, t.entry? i = some e → ∃ s, e.format = .string s

theorem entries_eq (t : Table) : t.entries = t.entryMap.map.toList.map Prod.snd := by
  have h : t.entries = t.entryMap.map.foldr (fun _ e es => e :: es) [] := rfl
  rw [h, Std.TreeMap.foldr_eq_foldr_toList]
  induction t.entryMap.map.toList with
  | nil => rfl
  | cons p ps ih => rw [List.foldr_cons, ih, List.map_cons]

/-- The entries of a table are found under their own indices. -/
theorem mem_entries_iff {t : Table} {e : Entry} : e ∈ t.entries ↔ t.entry? e.index = some e := by
  rw [entries_eq, List.mem_map]
  constructor
  · rintro ⟨⟨i, e⟩, hm, rfl⟩
    have h : t.entry? i = some e := Std.TreeMap.mem_toList_iff_getElem?_eq_some.mp hm
    rwa [t.entryMap.index_eq i e h]
  · intro h
    exact ⟨(e.index, e), Std.TreeMap.mem_toList_iff_getElem?_eq_some.mpr h, rfl⟩

theorem hasTextFormats_of_entries {t : Table}
    (h : ∀ e ∈ t.entries, e.format.text?.isSome = true) : t.HasTextFormats := by
  intro i e he
  have hmem : e ∈ t.entries := mem_entries_iff.mpr (by rwa [t.entryMap.index_eq i e he])
  have htext := h e hmem
  cases hf : e.format <;> rw [hf] at htext
  case string s => exact ⟨s, rfl⟩
  all_goals cases htext

theorem lookup_natCast (t : Table) (index : Nat) :
    t.lookup index =
      match t.entry? index with
      | some e => .ok e
      | none => .error (.unknownIndex index) := rfl

/-- The format of the entry at an index by itself, whatever it refers to. -/
def readAt (t : Table) (index : Nat) : Except Fault FormatString :=
  match t.lookup index with
  | .ok e => e.readFormat
  | .error cause => .error cause

/-- The entry at `i` fixes the one at `j`. -/
def Nests (t : Table) (i j : Nat) : Prop := ∃ f, t.readAt i = .ok f ∧ j ∈ f.nestedTargets

/-- The format of the entry at an index can be read, and so can all that it leads to. -/
inductive Usable (t : Table) : Nat → Prop
  | intro {i : Nat} {f : FormatString} :
      t.readAt i = .ok f → (∀ j ∈ f.nestedTargets, Usable t j) → Usable t i

variable {t : Table} {i j index steps : Nat} {path : List Nat} {f g : FormatString}

theorem isSome_of_readAt (h : t.readAt i = .ok f) : (t.entry? i).isSome = true := by
  cases he : t.entry? i with
  | none => simp [readAt, lookup, he] at h
  | some e => rfl

theorem Usable.exists_readAt (h : t.Usable i) : ∃ f, t.readAt i = .ok f := by
  obtain ⟨hf, -⟩ := h
  exact ⟨_, hf⟩

/-- A usable entry does not lead back to itself. -/
theorem Usable.acyclic (h : t.Usable i) : ¬ Relation.TransGen t.Nests i i := by
  induction h with
  | @intro i f hf _ ih =>
    intro hc
    -- the first step of the cycle leads to a target, and the cycle can be entered there as well
    obtain ⟨j, hij, hji⟩ := Relation.TransGen.head'_iff.mp hc
    obtain ⟨g, hg, hj⟩ := id hij
    refine ih j (Except.ok.inj (hf.symm.trans hg) ▸ hj) ?_
    exact Relation.TransGen.tail'_iff.mpr ⟨i, hji, hij⟩

/-! ## The path of a walk -/

/-- `path` leads to `index` by references through different entries of the table. -/
structure Trail (t : Table) (path : List Nat) (index : Nat) : Prop where
  nodup : path.Nodup
  known : ∀ p ∈ path, (t.entry? p).isSome = true
  leads : ∀ p ∈ path, Relation.TransGen t.Nests p index

theorem Trail.nil (t : Table) (index : Nat) : t.Trail [] index := by
  constructor <;> simp

theorem Trail.length_le (h : t.Trail path index) : path.length ≤ t.size := by
  have hsub : path ⊆ t.indices := by
    intro p hp
    have hk := h.known p hp
    rw [indices, Std.TreeMap.mem_keys, Std.TreeMap.mem_iff_isSome_getElem?]
    exact hk
  have hlen := h.nodup.length_le_of_subset hsub
  rwa [indices, Std.TreeMap.length_keys] at hlen

theorem Trail.snoc (h : t.Trail path index) (hf : t.readAt index = .ok f) (hj : j ∈ f.nestedTargets)
    (hnew : index ∉ path) : t.Trail (path ++ [index]) j where
  nodup := by
    rw [List.nodup_append]
    refine ⟨h.nodup, List.nodup_singleton _, ?_⟩
    rintro a ha b hb rfl
    rw [List.mem_singleton] at hb
    exact hnew (hb ▸ ha)
  known := by
    intro p hp
    rcases List.mem_append.mp hp with hp | hp
    · exact h.known p hp
    · rw [List.mem_singleton.mp hp]
      exact isSome_of_readAt hf
  leads := by
    have hstep : t.Nests index j := ⟨f, hf, hj⟩
    intro p hp
    rcases List.mem_append.mp hp with hp | hp
    · exact (h.leads p hp).tail hstep
    · rw [List.mem_singleton.mp hp]
      exact .single hstep

/-- A trail never passes through a usable entry to which it leads. -/
theorem Trail.not_mem (h : t.Trail path index) (hu : t.Usable index) : index ∉ path :=
  fun hm => hu.acyclic (h.leads index hm)

/-! ## Visiting -/

theorem visitAll_eq_ok_iff {visit : Nat → Except Fault FormatString} {targets : List Nat} :
    visitAll visit targets = .ok () ↔ ∀ j ∈ targets, ∃ g, visit j = .ok g := by
  induction targets with
  | nil => simp [visitAll, pure, Except.pure]
  | cons j rest ih =>
    rw [visitAll]
    cases hj : visit j with
    | error e => simp [bind, Except.bind, hj]
    | ok g => simp [bind, Except.bind, hj, ih]

theorem exists_of_visitAll_eq_error {visit : Nat → Except Fault FormatString} {targets : List Nat}
    {e : Fault} (h : visitAll visit targets = .error e) : ∃ j ∈ targets, visit j = .error e := by
  induction targets with
  | nil => simp [visitAll, pure, Except.pure] at h
  | cons j rest ih =>
    rw [visitAll] at h
    cases hj : visit j with
    | error e' =>
      simp only [bind, Except.bind, hj, Except.error.injEq] at h
      exact ⟨j, List.mem_cons_self, h ▸ hj⟩
    | ok g =>
      simp only [bind, Except.bind, hj] at h
      obtain ⟨k, hk, he⟩ := ih h
      exact ⟨k, List.mem_cons_of_mem _ hk, he⟩

theorem visitTarget_eq_ok_iff {visit : Nat → Except Fault FormatString} :
    t.visitTarget i visit j = .ok g ↔ (t.entry? j).isSome = true ∧ visit j = .ok g := by
  unfold visitTarget
  split
  · next h => simp [h]
  · next h => simp [h, throwThe, MonadExceptOf.throw]

/-! ## The walk without a memory -/

/-- One step of the walk: the entry is read, and all that it fixes is visited. -/
theorem walk_none_succ (t : Table) (steps : Nat) (path : List Nat) (index : Nat) :
    t.walk Memo.none (steps + 1) path index =
      if index ∈ path then .error (.cyclic index path)
      else
        match t.readAt index with
        | .error cause => .error cause
        | .ok f =>
          match visitAll (t.visitTarget index (t.walk Memo.none steps (path ++ [index])))
            f.nestedTargets with
          | .error cause => .error cause
          | .ok _ => .ok f := by
  rw [walk, readAt]
  simp only [Memo.none, bind, Except.bind, List.contains_eq_mem, decide_eq_true_eq]
  split
  · rfl
  · cases t.lookup index with
    | error cause => rfl
    | ok e =>
      simp only [Fault.lift, pure, Except.pure]
      cases e.readFormat with
      | error cause => rfl
      | ok f =>
        dsimp only
        split <;> simp_all

theorem walk_none_eq_ok_iff :
    t.walk Memo.none (steps + 1) path index = .ok f ↔ index ∉ path ∧ t.readAt index = .ok f ∧
      ∀ j ∈ f.nestedTargets, (t.entry? j).isSome = true ∧
        ∃ g, t.walk Memo.none steps (path ++ [index]) j = .ok g := by
  have hvisit (f' : FormatString) := @visitAll_eq_ok_iff
    (t.visitTarget index (t.walk Memo.none steps (path ++ [index]))) f'.nestedTargets
  simp only [visitTarget_eq_ok_iff, exists_and_left] at hvisit
  rw [walk_none_succ, ← hvisit]
  by_cases hm : index ∈ path
  · simp [hm]
  · rw [if_neg hm]
    cases t.readAt index with
    | error cause => simp
    | ok f' =>
      dsimp only
      cases hv : visitAll (t.visitTarget index (t.walk Memo.none steps (path ++ [index])))
        f'.nestedTargets with
      | error cause =>
        simp only [reduceCtorEq, Except.ok.injEq, false_iff]
        rintro ⟨-, rfl, h⟩
        rw [hv] at h
        cases h
      | ok u =>
        simp only [hm, not_false_eq_true, Except.ok.injEq, true_and]
        exact ⟨fun h => ⟨h, h ▸ hv⟩, fun h => h.1⟩

/-- What the walk finds is usable. -/
theorem usable_of_walk (h : t.walk Memo.none steps path index = .ok f) :
    t.readAt index = .ok f ∧ t.Usable index := by
  induction steps generalizing path index f with
  | zero => simp [walk, throwThe, MonadExceptOf.throw] at h
  | succ steps ih =>
    obtain ⟨-, hf, hall⟩ := walk_none_eq_ok_iff.mp h
    refine ⟨hf, .intro hf fun j hj => ?_⟩
    obtain ⟨-, g, hg⟩ := hall j hj
    exact (ih hg).2

/-- The walk finds what is usable, whatever trail it comes along. -/
theorem walk_of_usable (hu : t.Usable index) (hf : t.readAt index = .ok f) (ht : t.Trail path index)
    (hsteps : steps + path.length = t.size + 1) : t.walk Memo.none steps path index = .ok f := by
  induction hu generalizing steps path f with
  | @intro index f' hf' hall ih =>
    obtain rfl := Except.ok.inj (hf.symm.trans hf')
    have hnew := ht.not_mem (.intro hf hall)
    have hlen := ht.length_le
    obtain ⟨steps, rfl⟩ : ∃ n, steps = n + 1 := ⟨steps - 1, by omega⟩
    rw [walk_none_eq_ok_iff]
    refine ⟨hnew, hf, fun j hj => ?_⟩
    obtain ⟨g, hg⟩ := (hall j hj).exists_readAt
    refine ⟨isSome_of_readAt hg, g, ih j hj hg (ht.snoc hf hj hnew) ?_⟩
    rw [List.length_append, List.length_singleton]
    omega

/-- The entries whose formats can be had are the usable ones. -/
theorem freshFormat_eq_ok_iff : t.freshFormat i = .ok f ↔ t.readAt i = .ok f ∧ t.Usable i := by
  constructor
  · exact usable_of_walk
  · rintro ⟨hf, hu⟩
    exact walk_of_usable hu hf (.nil t i) (by simp)

/-! ## Faults of the walk -/

theorem isDecodingFault_of_lookup {e : Fault} (h : t.lookup i = .error e) :
    e.isDecodingFault = true := by
  rw [lookup_natCast] at h
  cases he : t.entry? i with
  | none =>
    rw [he] at h
    rw [← Except.error.inj h]
    rfl
  | some entry =>
    rw [he] at h
    cases h

theorem isDecodingFault_of_readAt (ht : t.HasTextFormats) {e : Fault}
    (h : t.readAt i = .error e) : e.isDecodingFault = true := by
  rw [readAt, lookup_natCast] at h
  cases he : t.entry? i with
  | none =>
    rw [he] at h
    rw [← Except.error.inj h]
    rfl
  | some entry =>
    obtain ⟨s, hs⟩ := ht i entry he
    rw [he] at h
    simp only [Entry.readFormat, hs] at h
    split at h
    · cases h
    · rw [← Except.error.inj h]
      rfl

theorem isDecodingFault_of_walk (ht : t.HasTextFormats) {e : Fault}
    (h : t.walk Memo.none steps path index = .error e) : e.isDecodingFault = true := by
  induction steps generalizing path index with
  | zero =>
    simp only [walk, throwThe, MonadExceptOf.throw, Except.error.injEq] at h
    rw [← h]
    rfl
  | succ steps ih =>
    rw [walk_none_succ] at h
    split at h
    · rw [← Except.error.inj h]
      rfl
    · split at h
      · next cause hread =>
        rw [← Except.error.inj h]
        exact isDecodingFault_of_readAt ht hread
      · split at h
        · next cause hvisit =>
          obtain rfl := Except.error.inj h
          obtain ⟨j, -, hj⟩ := exists_of_visitAll_eq_error hvisit
          unfold visitTarget at hj
          split at hj
          · exact ih hj
          · rw [← Except.error.inj hj]
            rfl
        · cases h

theorem isDecodingFault_of_freshFormat (ht : t.HasTextFormats) {e : Fault}
    (h : t.freshFormat i = .error e) : e.isDecodingFault = true :=
  isDecodingFault_of_walk ht h

/-! ## A small table -/

/-- A log statement with a text, a list of entries and a number. -/
def sampleStatement : Entry :=
  ⟨1, .string "{=str}: {=[?]} {=u16}", some .info, none, .string "app", "defmt_info"⟩

/-- The entry that formats what the list holds. -/
def sampleElement : Entry := ⟨2, .string "<{=u8}>", none, none, .string "app", "defmt_derived"⟩

/-- The timestamp format. -/
def sampleTimestamp : Entry := ⟨3, .string "{=u8:us}", none, none, .string "app", "defmt_timestamp"⟩

/-- A table of these entries, on which the theorems about tables are tried. -/
def sample : Table where
  version := "0.2.1"
  maxDepth := 32
  entryMap := ((EntryMap.empty.insert sampleStatement).insert sampleElement).insert sampleTimestamp
  timestamp := some 3
  timestamp_mem := by
    rintro i ⟨⟩
    decide

theorem sample_hasTextFormats : sample.HasTextFormats := by
  intro i e h
  simp only [sample, entry?, EntryMap.insert, EntryMap.empty, Std.TreeMap.getElem?_insert,
    Std.TreeMap.getElem?_emptyc] at h
  split at h
  · obtain rfl := Option.some.inj h
    exact ⟨_, rfl⟩
  · split at h
    · obtain rfl := Option.some.inj h
      exact ⟨_, rfl⟩
    · split at h
      · obtain rfl := Option.some.inj h
        exact ⟨_, rfl⟩
      · cases h

end Table

end DeferredLog
