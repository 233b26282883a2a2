import Mathlib
import DeferredLog.Proofs.Table.Memory

/-!
# The first defect of a walk

A format can be had unless the walk over the entries that it leads to meets a defect: an entry whose
text is no format, a reference to an index that is not in the table, or a reference back to an entry
that is still being parsed. `FirstDefect` says which defect a depth-first walk in argument order meets
first; its derivations are finite, and it knows neither a bound on the steps nor a memory.

    i in the table → t.Usable i ∨ ∃ d, t.FirstDefect [] i d              (usable_or_firstDefect)
    t.Usable i ↔ t.Grounded i                                            (usable_iff_grounded)

`formatAt_decides` puts this together for every cache that can arise: a format is returned exactly if
nothing that the entry leads to is missing, unreadable or on a cycle, and otherwise the fault is that of
the first defect.
-/

namespace DeferredLog

/-! ## Defects -/

/-- What a walk can stumble over. -/
inductive Defect where
  /-- The text of an entry is no format. -/
  | unreadable (index : Nat) (error : FormatError)
  /-- The entry at `source` fixes one that is not in the table. -/
  | missing (source target : Nat)
  /-- The last entry of `path` fixes one that is on `path`, and so is still being parsed. -/
  | backEdge (path : List Nat) (target : Nat)
  deriving DecidableEq, Repr

/-- The fault that a defect is raised as. -/
def Defect.fault : Defect → Fault
  | unreadable index error => .malformedFormat index error
  | missing source target => .nestsUnknown source target
  | backEdge path target => .cyclic target path

theorem Defect.fault_injective {d d' : Defect} (h : d.fault = d'.fault) : d = d' := by
  cases d <;> cases d' <;> simp_all [Defect.fault]

/-- Whether a defect closes a cycle. -/
def Defect.IsBackEdge (d : Defect) : Prop := ∃ path target, d = .backEdge path target

namespace Cached

variable {α β : Type}

/-- Two computations that go on alike from where a first one succeeds. -/
theorem bind_congr_at {x : Cached α} {f g : α → Cached β} {cache : FormatCache}
    (h : ∀ a cache', x cache = .ok a cache' → f a cache' = g a cache') :
    (x >>= f) cache = (x >>= g) cache := by
  show EStateM.bind x f cache = EStateM.bind x g cache
  unfold EStateM.bind
  cases hx : x cache with
  | ok a cache' => exact h a cache' hx
  | error e cache' => rfl

theorem of_lift_eq_ok {x : Except Fault α} {a : α} {cache cache' : FormatCache}
    (h : (Fault.lift x : Cached α) cache = .ok a cache') : x = .ok a ∧ cache = cache' := by
  cases x with
  | ok b =>
    obtain ⟨rfl, rfl⟩ := EStateM.Result.ok.inj h
    exact ⟨rfl, rfl⟩
  | error e => cases h

end Cached

namespace Table

variable {t : Table} {path : List Nat} {i j index steps : Nat} {f g : FormatString} {d : Defect}

/-- The entry at an index has a text, which reads as `f`. -/
def Formatted (t : Table) (index : Nat) (f : FormatString) : Prop :=
  ∃ e s, t.entry? index = some e ∧ e.format = .string s ∧ FormatString.parse s = .ok f

/-- All that an entry leads to is in the table and can be read, and nothing of it is on a cycle. -/
def Grounded (t : Table) (index : Nat) : Prop :=
  ∀ j, Relation.ReflTransGen t.Nests index j →
    (∃ f, t.Formatted j f) ∧ ¬ Relation.TransGen t.Nests j j

/-- The defect that a depth-first walk meets first when it has come along `path` to an entry. Targets
that come before the one at fault are walked without meeting any. -/
inductive FirstDefect (t : Table) : List Nat → Nat → Defect → Prop
  | unreadable {path : List Nat} {i : Nat} {e : Entry} {s : String} {error : FormatError} :
      t.entry? i = some e → e.format = .string s → FormatString.parse s = .error error →
      FirstDefect t path i (.unreadable i error)
  | missing {path : List Nat} {i j : Nat} {f : FormatString} {before after : List Nat} :
      t.Formatted i f → f.nestedTargets = before ++ j :: after → (∀ k ∈ before, t.Usable k) →
      t.entry? j = none → FirstDefect t path i (.missing i j)
  | backEdge {path : List Nat} {i j : Nat} {f : FormatString} {before after : List Nat} :
      t.Formatted i f → f.nestedTargets = before ++ j :: after → (∀ k ∈ before, t.Usable k) →
      j ∈ path ++ [i] → FirstDefect t path i (.backEdge (path ++ [i]) j)
  | deeper {path : List Nat} {i j : Nat} {f : FormatString} {before after : List Nat} {d : Defect} :
      t.Formatted i f → f.nestedTargets = before ++ j :: after → (∀ k ∈ before, t.Usable k) →
      j ∉ path ++ [i] → FirstDefect t (path ++ [i]) j d → FirstDefect t path i d

/-! ## Reading an entry -/

theorem Formatted.readAt (h : t.Formatted i f) : t.readAt i = .ok f := by
  obtain ⟨e, s, he, hs, hf⟩ := h
  simp only [Table.readAt, lookup_natCast, he, Entry.readFormat, hs, hf]

theorem formatted_of_readAt (ht : t.HasTextFormats) (h : t.readAt i = .ok f) : t.Formatted i f := by
  obtain ⟨e, he⟩ := Option.isSome_iff_exists.mp (isSome_of_readAt h)
  obtain ⟨s, hs⟩ := ht i e he
  refine ⟨e, s, he, hs, ?_⟩
  simp only [Table.readAt, lookup_natCast, he, Entry.readFormat, hs] at h
  split at h
  · next f' hp =>
    obtain rfl := Except.ok.inj h
    exact hp
  · cases h

theorem formatted_iff_readAt (ht : t.HasTextFormats) : t.Formatted i f ↔ t.readAt i = .ok f :=
  ⟨Formatted.readAt, formatted_of_readAt ht⟩

theorem Usable.of_nests (h : t.Usable i) (hij : t.Nests i j) : t.Usable j := by
  obtain ⟨hf, hall⟩ := h
  obtain ⟨g, hg, hj⟩ := hij
  exact hall j (Except.ok.inj (hf.symm.trans hg) ▸ hj)

theorem Usable.grounded (ht : t.HasTextFormats) (h : t.Usable i) : t.Grounded i := by
  intro j hij
  have hj : t.Usable j := by
    induction hij with
    | refl => exact h
    | tail _ hstep ih => exact ih.of_nests hstep
  obtain ⟨f, hf⟩ := hj.exists_readAt
  exact ⟨⟨f, formatted_of_readAt ht hf⟩, hj.acyclic⟩

theorem Grounded.of_nests (h : t.Grounded i) (hij : t.Nests i j) : t.Grounded j :=
  fun k hjk => h k (.head hij hjk)

/-! ## Every walk ends -/

/-- Targets are all usable, or there is a first one that is not. -/
theorem all_usable_or_split (t : Table) (targets : List Nat) :
    (∀ j ∈ targets, t.Usable j) ∨ ∃ before j after, targets = before ++ j :: after ∧
      (∀ k ∈ before, t.Usable k) ∧ ¬ t.Usable j := by
  induction targets with
  | nil => exact .inl (by simp)
  | cons j rest ih =>
    by_cases hj : t.Usable j
    · rcases ih with hall | ⟨before, k, after, rfl, hbefore, hk⟩
      · exact .inl (by simpa [hj] using hall)
      · exact .inr ⟨j :: before, k, after, rfl, by simpa [hj] using hbefore, hk⟩
    · exact .inr ⟨[], j, rest, rfl, by simp, hj⟩

/-- An entry that a trail newly comes to is usable, or the walk from there meets a first defect: the
trail grows with every step, and it is no longer than the table. -/
theorem usable_or_firstDefect (ht : t.HasTextFormats) (hp : t.Trail path i) (hnew : i ∉ path)
    (hi : (t.entry? i).isSome = true) (steps : Nat) (hsteps : steps + path.length = t.size + 1) :
    t.Usable i ∨ ∃ d, t.FirstDefect path i d := by
  induction steps generalizing path i with
  | zero =>
    have := hp.length_le
    omega
  | succ steps ih =>
    obtain ⟨e, he⟩ := Option.isSome_iff_exists.mp hi
    obtain ⟨s, hs⟩ := ht i e he
    cases hparse : FormatString.parse s with
    | error error => exact .inr ⟨_, .unreadable he hs hparse⟩
    | ok f =>
      have hf : t.Formatted i f := ⟨e, s, he, hs, hparse⟩
      rcases t.all_usable_or_split f.nestedTargets with hall | ⟨before, j, after, hsplit, hbefore, hj⟩
      · exact .inl (.intro hf.readAt hall)
      · refine .inr ?_
        cases hjs : t.entry? j with
        | none => exact ⟨_, .missing hf hsplit hbefore hjs⟩
        | some _ =>
          by_cases hback : j ∈ path ++ [i]
          · exact ⟨_, .backEdge hf hsplit hbefore hback⟩
          · have hmem : j ∈ f.nestedTargets := by rw [hsplit]; simp
            have hlen : steps + (path ++ [i]).length = t.size + 1 := by
              rw [List.length_append, List.length_singleton]
              omega
            rcases ih (hp.snoc hf.readAt hmem hnew) hback (by rw [hjs]; rfl) hlen with hu | ⟨d, hd⟩
            · exact absurd hu hj
            · exact ⟨d, .deeper hf hsplit hbefore hback hd⟩

theorem FirstDefect.isSome (h : t.FirstDefect path i d) : (t.entry? i).isSome = true := by
  cases h with
  | unreadable he _ _ => rw [he]; rfl
  | missing hf _ _ _ => exact isSome_of_readAt hf.readAt
  | backEdge hf _ _ _ => exact isSome_of_readAt hf.readAt
  | deeper hf _ _ _ _ => exact isSome_of_readAt hf.readAt

/-- Where nothing is missing, unreadable or on a cycle, there is no defect to meet. -/
theorem FirstDefect.not_grounded (h : t.FirstDefect path i d)
    (hp : ∀ p ∈ path, Relation.TransGen t.Nests p i) : ¬ t.Grounded i := by
  induction h with
  | unreadable he hs hparse =>
    intro hg
    obtain ⟨⟨f, e', s', he', hs', hf⟩, -⟩ := hg _ .refl
    obtain rfl := Option.some.inj (he.symm.trans he')
    obtain rfl := Json.string.inj (hs.symm.trans hs')
    cases hparse.symm.trans hf
  | @missing path i j f before after hf hsplit _ hj =>
    intro hg
    have hij : t.Nests i j := ⟨f, hf.readAt, by rw [hsplit]; simp⟩
    obtain ⟨⟨f', e', s', he', -⟩, -⟩ := hg j (.single hij)
    cases hj.symm.trans he'
  | @backEdge path i j f before after hf hsplit _ hj =>
    intro hg
    have hij : t.Nests i j := ⟨f, hf.readAt, by rw [hsplit]; simp⟩
    refine (hg j (.single hij)).2 ?_
    rcases List.mem_append.mp hj with hj | hj
    · exact (hp j hj).tail hij
    · rw [List.mem_singleton] at hj
      rw [hj] at hij ⊢
      exact .single hij
  | @deeper path i j f before after d hf hsplit _ _ _ ih =>
    intro hg
    have hij : t.Nests i j := ⟨f, hf.readAt, by rw [hsplit]; simp⟩
    refine ih ?_ (hg.of_nests hij)
    intro p hm
    rcases List.mem_append.mp hm with hm | hm
    · exact (hp p hm).tail hij
    · rw [List.mem_singleton.mp hm]
      exact .single hij

theorem usable_iff_grounded (ht : t.HasTextFormats) : t.Usable i ↔ t.Grounded i := by
  refine ⟨Usable.grounded ht, fun hg => ?_⟩
  obtain ⟨⟨f, e, s, he, -⟩, -⟩ := hg i .refl
  rcases usable_or_firstDefect ht (.nil t i) (by simp) (by rw [he]; rfl) (t.size + 1) rfl with
    hu | ⟨d, hd⟩
  · exact hu
  · exact absurd hg (hd.not_grounded (by simp))

/-! ## What the walk raises -/

theorem visitAll_append_of_ok {visit : Nat → Except Fault FormatString} {before after : List Nat}
    (h : ∀ k ∈ before, ∃ g, visit k = .ok g) :
    visitAll visit (before ++ after) = visitAll visit after := by
  induction before with
  | nil => rfl
  | cons k before ih =>
    obtain ⟨g, hg⟩ := h k List.mem_cons_self
    rw [List.cons_append, visitAll, hg, ← ih fun l hl => h l (List.mem_cons_of_mem _ hl)]
    rfl

/-- The walk comes to a target as soon as those before it are usable. -/
theorem walk_of_split (hp : t.Trail path i) (hnew : i ∉ path) (hf : t.readAt i = .ok f)
    (hsteps : steps + 1 + path.length = t.size + 1) {before after : List Nat}
    (hsplit : f.nestedTargets = before ++ j :: after) (hbefore : ∀ k ∈ before, t.Usable k) {e : Fault}
    (hj : t.visitTarget i (t.walk Memo.none steps (path ++ [i])) j = .error e) :
    t.walk Memo.none (steps + 1) path i = .error e := by
  have hvisit : visitAll (t.visitTarget i (t.walk Memo.none steps (path ++ [i]))) f.nestedTargets =
      .error e := by
    rw [hsplit, visitAll_append_of_ok, visitAll, hj]
    · rfl
    · intro k hk
      obtain ⟨g, hg⟩ := (hbefore k hk).exists_readAt
      have hmem : k ∈ f.nestedTargets := by rw [hsplit]; simp [hk]
      refine ⟨g, visitTarget_eq_ok_iff.mpr ⟨isSome_of_readAt hg, ?_⟩⟩
      refine walk_of_usable (hbefore k hk) hg (hp.snoc hf hmem hnew) ?_
      rw [List.length_append, List.length_singleton]
      omega
  rw [walk_none_succ, if_neg hnew, hf]
  dsimp only
  rw [hvisit]

/-- The walk raises the first defect. -/
theorem walk_of_firstDefect (h : t.FirstDefect path i d) (hp : t.Trail path i) (hnew : i ∉ path)
    (hsteps : steps + path.length = t.size + 1) :
    t.walk Memo.none steps path i = .error d.fault := by
  induction h generalizing steps with
  | @unreadable path i e s error he hs hparse =>
    have hlen := hp.length_le
    obtain ⟨steps, rfl⟩ : ∃ n, steps = n + 1 := ⟨steps - 1, by omega⟩
    have hindex : e.index = i := t.entryMap.index_eq i e he
    rw [walk_none_succ, if_neg hnew]
    simp only [readAt, lookup_natCast, he, Entry.readFormat, hs, hparse, hindex, Defect.fault]
  | @missing path i j f before after hf hsplit hbefore hj =>
    have hlen := hp.length_le
    obtain ⟨steps, rfl⟩ : ∃ n, steps = n + 1 := ⟨steps - 1, by omega⟩
    refine walk_of_split hp hnew hf.readAt hsteps hsplit hbefore ?_
    rw [visitTarget, hj]
    rfl
  | @backEdge path i j f before after hf hsplit hbefore hj =>
    have hlen := hp.length_le
    obtain ⟨steps, rfl⟩ : ∃ n, steps = n + 1 := ⟨steps - 1, by omega⟩
    refine walk_of_split hp hnew hf.readAt hsteps hsplit hbefore ?_
    have hmem : j ∈ f.nestedTargets := by rw [hsplit]; simp
    have htrail := hp.snoc hf.readAt hmem hnew
    rw [visitTarget, if_pos (htrail.known j hj)]
    cases steps with
    | zero => rfl
    | succ steps => rw [walk_none_succ, if_pos hj, Defect.fault]
  | @deeper path i j f before after d hf hsplit hbefore hback hd ih =>
    have hlen := hp.length_le
    obtain ⟨steps, rfl⟩ : ∃ n, steps = n + 1 := ⟨steps - 1, by omega⟩
    refine walk_of_split hp hnew hf.readAt hsteps hsplit hbefore ?_
    have hmem : j ∈ f.nestedTargets := by rw [hsplit]; simp
    rw [visitTarget, if_pos hd.isSome]
    refine ih (hp.snoc hf.readAt hmem hnew) hback ?_
    rw [List.length_append, List.length_singleton]
    omega

theorem freshFormat_of_firstDefect (h : t.FirstDefect [] i d) : t.freshFormat i = .error d.fault :=
  walk_of_firstDefect h (.nil t i) (by simp) rfl

/-- There is at most one first defect. -/
theorem FirstDefect.unique {d' : Defect} (h : t.FirstDefect [] i d) (h' : t.FirstDefect [] i d') :
    d = d' :=
  Defect.fault_injective <| Except.error.inj <|
    (freshFormat_of_firstDefect h).symm.trans (freshFormat_of_firstDefect h')

theorem freshFormat_eq_error_iff (ht : t.HasTextFormats) {e : Fault} :
    t.freshFormat i = .error e ↔
      (t.entry? i = none ∧ e = .unknownIndex i) ∨ ∃ d, t.FirstDefect [] i d ∧ e = d.fault := by
  constructor
  · intro h
    cases hi : t.entry? i with
    | none =>
      rw [freshFormat, walk_none_succ, if_neg (by simp), readAt, lookup_natCast, hi] at h
      exact .inl ⟨rfl, (Except.error.inj h).symm⟩
    | some entry =>
      rcases usable_or_firstDefect ht (.nil t i) (by simp) (by rw [hi]; rfl) (t.size + 1) rfl with
        hu | ⟨d, hd⟩
      · obtain ⟨f, hf⟩ := hu.exists_readAt
        rw [freshFormat_eq_ok_iff.mpr ⟨hf, hu⟩] at h
        cases h
      · rw [freshFormat_of_firstDefect hd] at h
        exact .inr ⟨d, hd, (Except.error.inj h).symm⟩
  · rintro (⟨hi, rfl⟩ | ⟨d, hd, rfl⟩)
    · rw [freshFormat, walk_none_succ, if_neg (by simp), readAt, lookup_natCast, hi]
    · exact freshFormat_of_firstDefect hd

/-! ## More steps -/

theorem visitAll_congr {I : FormatCache → Prop} {v w : Nat → Cached FormatString} {targets : List Nat}
    (h : ∀ j ∈ targets, ∀ cache, I cache → v j cache = w j cache ∧ I ((w j).cacheAfter cache))
    {cache : FormatCache} (hc : I cache) : visitAll v targets cache = visitAll w targets cache := by
  induction targets generalizing cache with
  | nil => rfl
  | cons j rest ih =>
    obtain ⟨heq, hafter⟩ := h j List.mem_cons_self cache hc
    simp only [visitAll, bind, EStateM.bind, heq]
    simp only [Cached.cacheAfter] at hafter
    cases hj : w j cache with
    | error e cache' => rfl
    | ok g cache' =>
      rw [hj] at hafter
      exact ih (fun k hk => h k (List.mem_cons_of_mem _ hk)) hafter

/-- The bound on the steps is never what ends a walk. -/
theorem walk_add_steps (ht : t.Trail path index) (hsteps : steps + path.length = t.size + 1)
    (more : Nat) {cache : FormatCache} (hc : FormatCache.Sound t cache) :
    t.walk Cached.memo (steps + more) path index cache = t.walk Cached.memo steps path index cache := by
  induction steps generalizing path index cache with
  | zero =>
    have := ht.length_le
    omega
  | succ steps ih =>
    rw [Nat.add_right_comm]
    cases hhit : cache[index]? with
    | some f => rw [walk_memo_of_some hhit, walk_memo_of_some hhit]
    | none =>
      rw [walk_memo_of_none hhit, walk_memo_of_none hhit]
      unfold walkMiss
      split
      · rfl
      · next hnew =>
        replace hnew : index ∉ path := by simpa using hnew
        refine Cached.bind_congr_at fun e _ he => ?_
        obtain ⟨hlookup, rfl⟩ := Cached.of_lift_eq_ok he
        refine Cached.bind_congr_at fun f _ hf => ?_
        obtain ⟨hformat, rfl⟩ := Cached.of_lift_eq_ok hf
        have hread : t.readAt index = .ok f := by rw [readAt, hlookup]; exact hformat
        -- both walks go on from what the targets before have left remembered
        simp only [bind, EStateM.bind]
        rw [visitAll_congr (I := FormatCache.Sound t) (fun j hj cache' hc' => ?_) hc]
        have htrail := ht.snoc hread hj hnew
        have hlen : steps + (path ++ [index]).length = t.size + 1 := by
          rw [List.length_append, List.length_singleton]
          omega
        unfold visitTarget
        split
        · exact ⟨ih htrail hlen hc', (walk_agrees htrail hlen cache' hc').2⟩
        · exact ⟨rfl, hc'⟩

/-! ## Any state of the memory -/

/-- **When a format can be had.** Whatever the table remembers, the format of an entry is returned if
nothing that the entry leads to is missing, unreadable or on a cycle; otherwise the fault is that of the
first defect. A walk that may take more steps has the same outcome. -/
theorem formatAt_decides (t : Table) (ht : t.HasTextFormats) (cache : FormatCache)
    (hc : t.Remembers cache) (i : Nat) :
    (∀ f, (t.formatAt i).result cache = .ok f ↔ t.Formatted i f ∧ t.Grounded i) ∧
    (∀ e, (t.formatAt i).result cache = .error e ↔
      (t.entry? i = none ∧ e = .unknownIndex i) ∨ ∃ d, t.FirstDefect [] i d ∧ e = d.fault) ∧
    (∀ e, (t.formatAt i).result cache = .error e →
      (e.kind = .unknownIndex ↔ t.entry? i = none) ∧
      (e.kind = .cyclicNesting ↔ ∃ d, t.FirstDefect [] i d ∧ d.IsBackEdge) ∧
      (e.kind = .malformedDirective ↔ ∃ d, t.FirstDefect [] i d ∧ ¬ d.IsBackEdge)) ∧
    (∀ n, (t.formatAt (.negSucc n)).result cache = .error (.unknownIndex (.negSucc n))) ∧
    ∀ steps > t.size, t.walk Cached.memo steps [] i cache = t.format i cache := by
  have hfresh : (t.formatAt i).result cache = t.freshFormat i := (t.format_agrees i cache hc).1
  rw [hfresh]
  refine ⟨fun f => ?_, fun e => freshFormat_eq_error_iff ht, fun e h => ?_, fun n => rfl, ?_⟩
  · rw [freshFormat_eq_ok_iff, usable_iff_grounded ht, formatted_iff_readAt ht]
  · rcases (freshFormat_eq_error_iff ht).mp h with ⟨hi, rfl⟩ | ⟨d, hd, rfl⟩
    · have hnone (d : Defect) : ¬ t.FirstDefect [] i d := fun hd => by simpa [hi] using hd.isSome
      simp [Fault.kind, hi, hnone]
    · have hi : t.entry? i ≠ none := Option.isSome_iff_ne_none.mp hd.isSome
      have honly (d' : Defect) : t.FirstDefect [] i d' ↔ d' = d :=
        ⟨fun hd' => hd'.unique hd, fun h => h ▸ hd⟩
      simp only [honly, exists_eq_left, hi, iff_false]
      cases d <;> simp [Defect.fault, Fault.kind, Defect.IsBackEdge]
  · intro steps hsteps
    obtain ⟨more, rfl⟩ := Nat.exists_eq_add_of_le (show t.size + 1 ≤ steps from hsteps)
    exact walk_add_steps (.nil t i) rfl more hc.sound

/-- An entry that is no log statement. -/
def derived (index : Nat) (format : String) : Entry :=
  ⟨index, .string format, none, none, .string "app", "defmt_derived"⟩

/-- A table in which two entries share a target, and others are on a cycle or lead out of the table. -/
def tangled : Table where
  version := "0.2.1"
  maxDepth := 32
  entryMap := [derived 1 "{=@2}{=@3}", derived 2 "<{=@4}>", derived 3 "{=@4}", derived 4 "!",
    derived 5 "{=@1}{=@6}", derived 6 "{=@4}{=@5}", derived 7 "{=@1}{=@8}"].foldl EntryMap.insert .empty
  timestamp := none
  timestamp_mem := by simp

theorem tangled_hasTextFormats : tangled.HasTextFormats :=
  hasTextFormats_of_entries (by decide)

/-- What the table remembers once the lookup of an entry on the cycle has failed. -/
def tangledCache : FormatCache := (tangled.format 5).cacheAfter {}

theorem formatAt_tangled :
    (∃ f, (tangled.formatAt 1).result tangledCache = .ok f) ∧
      (tangled.formatAt 5).result tangledCache = .error (.cyclic 5 [5, 6]) ∧
      (tangled.formatAt 7).result tangledCache = .error (.nestsUnknown 7 8) :=
  ⟨⟨_, by cbv⟩, by cbv, by cbv⟩

theorem formatAt_decides_tangled :
    tangled.HasTextFormats ∧ tangled.Remembers tangledCache ∧ tangled.Grounded 1 ∧
      tangled.FirstDefect [] 5 (.backEdge [5, 6] 5) ∧ tangled.FirstDefect [] 7 (.missing 7 8) := by
  have hc : tangled.Remembers tangledCache := .format 5 .nothing
  have decides := formatAt_decides tangled tangled_hasTextFormats tangledCache hc
  obtain ⟨⟨f, hshared⟩, hcycle, hgap⟩ := formatAt_tangled
  refine ⟨tangled_hasTextFormats, hc, (((decides 1).1 f).mp hshared).2, ?_, ?_⟩
  · rcases ((decides 5).2.1 _).mp hcycle with ⟨-, h⟩ | ⟨d, hd, h⟩
    · cases h
    · rwa [Defect.fault_injective (show (Defect.backEdge [5, 6] 5).fault = d.fault from h)]
  · rcases ((decides 7).2.1 _).mp hgap with ⟨-, h⟩ | ⟨d, hd, h⟩
    · cases h
    · rwa [Defect.fault_injective (show (Defect.missing 7 8).fault = d.fault from h)]

end Table

end DeferredLog
