import DeferredLog.Proofs.Table.Defects

/-!
# What a table remembers at any moment

A walk remembers an entry only after all that the entry fixes. Here the walk is run over a memory that
keeps a record of every state it was in. The record does not change the walk, and what is remembered is
settled in all of these states: it is what the entries say, with all that they lead to, and nothing of
it is missing, unreadable or on a cycle. This also holds of the states in which a failing walk stops.

    FormatCache.Settled t cache → ∀ now ∈ t.moments cache i, FormatCache.Settled t now  (moments_spec)
-/

namespace DeferredLog

/-! ## Settled caches -/

/-- All that is remembered is what its entry says, is usable, and has its targets remembered. -/
structure FormatCache.Settled (t : Table) (cache : FormatCache) : Prop where
  reads : ∀ (i : Nat) (f : FormatString), cache[i]? = some f → t.readAt i = .ok f
  usable : ∀ (i : Nat) (f : FormatString), cache[i]? = some f → t.Usable i
  targets : ∀ (i : Nat) (f : FormatString), cache[i]? = some f → ∀ j ∈ f.nestedTargets, j ∈ cache

namespace FormatCache

variable {t : Table} {cache : FormatCache} {i j : Nat} {f : FormatString}

theorem Settled.empty (t : Table) : FormatCache.Settled t {} := by
  constructor <;> simp

theorem mem_insert_of_mem (h : j ∈ cache) : j ∈ cache.insert i f :=
  Std.TreeMap.mem_insert.mpr (.inr h)

theorem Settled.usable_of_mem (h : FormatCache.Settled t cache) (hj : j ∈ cache) : t.Usable j := by
  obtain ⟨g, hg⟩ := Option.isSome_iff_exists.mp (Std.TreeMap.mem_iff_isSome_getElem?.mp hj)
  exact h.usable j g hg

/-- An entry whose targets are remembered may be remembered. -/
theorem Settled.insert (h : FormatCache.Settled t cache) (hf : t.readAt i = .ok f)
    (htargets : ∀ j ∈ f.nestedTargets, j ∈ cache) : FormatCache.Settled t (cache.insert i f) := by
  have hcases (j : Nat) (g : FormatString) (hj : (cache.insert i f)[j]? = some g) :
      i = j ∧ f = g ∨ cache[j]? = some g := by
    rw [Std.TreeMap.getElem?_insert] at hj
    split at hj
    · next heq => exact .inl ⟨Std.LawfulEqCmp.eq_of_compare heq, Option.some.inj hj⟩
    · exact .inr hj
  constructor
  · intro j g hj
    rcases hcases j g hj with ⟨rfl, rfl⟩ | hj
    · exact hf
    · exact h.reads j g hj
  · intro j g hj
    rcases hcases j g hj with ⟨rfl, rfl⟩ | hj
    · exact .intro hf fun k hk => h.usable_of_mem (htargets k hk)
    · exact h.usable j g hj
  · intro j g hj k hk
    rcases hcases j g hj with ⟨rfl, rfl⟩ | hj
    · exact mem_insert_of_mem (htargets k hk)
    · exact mem_insert_of_mem (h.targets j g hj k hk)

end FormatCache

/-! ## A memory with a record -/

/-- What is remembered now, and what was remembered before, the latest first. -/
structure History where
  now : FormatCache
  before : List FormatCache

/-- All states of a memory. -/
def History.moments (h : History) : List FormatCache := h.now :: h.before

/-- Computations that parse formats over a memory with a record. -/
abbrev Recorded (α : Type) := EStateM Fault History α

/-- The memory of recorded computations. -/
def Recorded.memo : Memo Recorded where
  lookUp index := fun h => .ok h.now[index]? h
  store index f := fun h => .ok () ⟨h.now.insert index f, h.moments⟩

/-- The format of an entry, parsed over a memory with a record. -/
def Table.formatRecorded (t : Table) (index : Nat) : Recorded FormatString :=
  t.walk Recorded.memo (t.size + 1) [] index

namespace History

variable {t : Table} {h h' h'' : History}

/-- What was remembered was settled at every moment. -/
def Settled (t : Table) (h : History) : Prop :=
  ∀ cache ∈ h.moments, FormatCache.Settled t cache

/-- `h'` goes on from `h` without forgetting anything. -/
structure Extends (h' h : History) : Prop where
  moments : h.moments <:+ h'.moments
  keeps : ∀ i ∈ h.now, i ∈ h'.now

theorem Extends.refl (h : History) : h.Extends h := ⟨List.suffix_rfl, fun _ hi => hi⟩

theorem Extends.trans (h₁ : h'.Extends h) (h₂ : h''.Extends h') : h''.Extends h :=
  ⟨h₁.moments.trans h₂.moments, fun i hi => h₂.keeps i (h₁.keeps i hi)⟩

theorem Settled.now (hs : h.Settled t) : FormatCache.Settled t h.now :=
  hs h.now List.mem_cons_self

end History

/-! ## Recorded computations -/

/-- How a recorded computation that starts with `h` ends, as against one without a record: what it
returns satisfies `Q` together with what is then remembered. -/
inductive Ends {α : Type} (t : Table) (h : History) (Q : α → FormatCache → Prop) :
    EStateM.Result Fault History α → EStateM.Result Fault FormatCache α → Prop
  | ok {a : α} {h' : History} :
      h'.Settled t → h'.Extends h → Q a h'.now → Ends t h Q (.ok a h') (.ok a h'.now)
  | error {e : Fault} {h' : History} :
      h'.Settled t → h'.Extends h → Ends t h Q (.error e h') (.error e h'.now)

/-- `x` does what `y` does, over a memory with the record `h`. -/
def Follows {α : Type} (t : Table) (h : History) (x : Recorded α) (y : Cached α)
    (Q : α → FormatCache → Prop) : Prop :=
  Ends t h Q (x h) (y h.now)

namespace Follows

variable {α β : Type} {t : Table} {h : History} {Q : α → FormatCache → Prop}
  {R : β → FormatCache → Prop}

theorem pure (hs : h.Settled t) {a : α} (hQ : Q a h.now) :
    Follows t h (Pure.pure a) (Pure.pure a) Q :=
  .ok hs (.refl h) hQ

theorem throw (hs : h.Settled t) (e : Fault) :
    Follows t h (throwThe Fault e) (throwThe Fault e) Q :=
  .error hs (.refl h)

theorem lift (hs : h.Settled t) (x : Except Fault α) :
    Follows t h (Fault.lift x) (Fault.lift x) fun a _ => x = .ok a := by
  cases x with
  | ok a => exact pure hs rfl
  | error e => exact throw hs e

theorem bind {x : Recorded α} {y : Cached α} {f : α → Recorded β} {g : α → Cached β}
    (hx : Follows t h x y Q)
    (hf : ∀ a h', h'.Settled t → h'.Extends h → Q a h'.now → Follows t h' (f a) (g a) R) :
    Follows t h (x >>= f) (y >>= g) R := by
  show Ends t h R (EStateM.bind x f h) (EStateM.bind y g h.now)
  unfold Follows at hx
  unfold EStateM.bind
  generalize x h = r, y h.now = s at hx
  cases hx with
  | error hs hext => exact .error hs hext
  | @ok a h' hs hext hQ =>
    have hfa := hf a h' hs hext hQ
    unfold Follows at hfa
    dsimp only
    generalize f a h' = r, g a h'.now = s at hfa
    cases hfa with
    | error hs' hext' => exact .error hs' (hext.trans hext')
    | ok hs' hext' hR => exact .ok hs' (hext.trans hext') hR

/-- What is known of the end may be stated otherwise. -/
theorem imp {x : Recorded α} {y : Cached α} {Q' : α → FormatCache → Prop} (hx : Follows t h x y Q)
    (hQ : ∀ a (h' : History), h'.Extends h → Q a h'.now → Q' a h'.now) : Follows t h x y Q' := by
  unfold Follows at hx ⊢
  generalize x h = r, y h.now = s at hx
  cases hx with
  | error hs hext => exact .error hs hext
  | ok hs hext h => exact .ok hs hext (hQ _ _ hext h)

end Follows

/-! ## The walk with a record -/

theorem visitAll_follows {t : Table} {v : Nat → Recorded FormatString}
    {w : Nat → Cached FormatString} {targets : List Nat}
    (hv : ∀ j ∈ targets, ∀ h, h.Settled t → Follows t h (v j) (w j) fun _ cache => j ∈ cache)
    {h : History} (hs : h.Settled t) :
    Follows t h (visitAll v targets) (visitAll w targets) fun _ cache => ∀ j ∈ targets, j ∈ cache := by
  induction targets generalizing h with
  | nil => exact .pure hs (by simp)
  | cons j rest ih =>
    refine (hv j List.mem_cons_self h hs).bind fun _ h₁ hs₁ _ hj => ?_
    refine (ih (fun k hk => hv k (List.mem_cons_of_mem _ hk)) hs₁).imp fun _ h₂ hext hrest => ?_
    intro k hk
    rcases List.mem_cons.mp hk with rfl | hk
    · exact hext.keeps k hj
    · exact hrest k hk

namespace Table

variable {t : Table}

theorem walk_follows (t : Table) (steps : Nat) (path : List Nat) (index : Nat) {h : History}
    (hs : h.Settled t) :
    Follows t h (t.walk Recorded.memo steps path index) (t.walk Cached.memo steps path index)
      fun f cache => cache[index]? = some f := by
  induction steps generalizing path index h with
  | zero => exact .throw hs _
  | succ steps ih =>
    rw [walk, walk]
    refine .bind (Q := fun hit cache => cache[index]? = hit) (.ok hs (.refl h) rfl) ?_
    intro hit h₁ hs₁ _ hhit
    cases hit with
    | some f => exact .pure hs₁ hhit
    | none =>
      dsimp only
      split
      · exact .throw hs₁ _
      · refine .bind (.lift hs₁ _) fun e h₂ hs₂ _ he => .bind (.lift hs₂ _) fun f h₃ hs₃ _ hf => ?_
        have hread : t.readAt index = .ok f := by rw [readAt, he]; exact hf
        refine .bind (visitAll_follows (fun j _ h hs => ?_) hs₃) fun _ h₄ hs₄ _ htargets => ?_
        · unfold visitTarget
          split
          · have hj := ih (path ++ [index]) j hs
            exact hj.imp fun f h' _ hhit => Std.TreeMap.mem_iff_isSome_getElem?.mpr (by rw [hhit]; rfl)
          · exact .throw hs _
        · -- the entry is stored after its targets
          have hsettled := hs₄.now.insert hread htargets
          refine .bind (Q := fun _ cache => cache[index]? = some f) ?_ fun _ h₅ hs₅ _ hstored =>
            .pure hs₅ hstored
          refine .ok ?_ ⟨List.suffix_cons _ _, fun i hi => ?_⟩ (by simp)
          · intro cache hc
            rcases List.mem_cons.mp hc with rfl | hc
            · exact hsettled
            · exact hs₄ cache hc
          · exact FormatCache.mem_insert_of_mem hi

/-- The states of the memory while a format is looked up, the latest first. -/
def moments (t : Table) (cache : FormatCache) (index : Nat) : List FormatCache :=
  match t.formatRecorded index ⟨cache, []⟩ with
  | .ok _ h | .error _ h => h.moments

/-- A lookup starts with what was remembered before, ends with what it leaves remembered, and goes
through settled states. -/
theorem moments_spec {cache : FormatCache} (hc : FormatCache.Settled t cache) (index : Nat) :
    [cache] <:+ t.moments cache index ∧
      (t.moments cache index).head? = some ((t.format index).cacheAfter cache) ∧
      ∀ now ∈ t.moments cache index, FormatCache.Settled t now := by
  have hs : History.Settled t ⟨cache, []⟩ := by
    intro now hnow
    rwa [List.mem_singleton.mp hnow]
  have hend := walk_follows t (t.size + 1) [] index hs
  unfold moments formatRecorded format Cached.cacheAfter
  unfold Follows at hend
  generalize t.walk Recorded.memo _ _ _ _ = r, t.walk Cached.memo _ _ _ _ = s at hend
  cases hend with
  | ok hs hext _ => exact ⟨hext.moments, rfl, hs⟩
  | error hs hext => exact ⟨hext.moments, rfl, hs⟩

theorem Remembers.settled {cache : FormatCache} (h : t.Remembers cache) :
    FormatCache.Settled t cache := by
  induction h with
  | nothing => exact .empty t
  | format index _ ih =>
    obtain ⟨-, hhead, hall⟩ := moments_spec ih index
    exact hall _ (List.mem_of_head? hhead)

end Table

end DeferredLog
