import DeferredLog.Proofs.Table.Walk

/-!
# What a table remembers

A table remembers the formats that it parsed, also those that it parsed on the way to a fault.
`Remembers` holds of the caches that this leads to. All that they hold is usable, so a walk that finds
a remembered format stops where a walk without a memory would succeed as well: with any of these
caches, looking up a format has the outcome that it has with none (`format_agrees`), faults and their
paths included.

`Cached.Agrees` says this of a whole computation, and is kept by everything that computations are made
of.
-/

namespace DeferredLog

@[simp] theorem Fault.lift_eq_self {α : Type} (x : Except Fault α) :
    (Fault.lift x : Except Fault α) = x := by
  cases x <;> rfl

/-! ## Computations that a memory does not change -/

namespace Cached

variable {α β : Type} {I : FormatCache → Prop}

/-- What a computation returns or raises when it starts with `cache`. -/
def result (x : Cached α) (cache : FormatCache) : Except Fault α :=
  match x cache with
  | .ok a _ => .ok a
  | .error e _ => .error e

/-- What a computation that starts with `cache` leaves remembered. -/
def cacheAfter (x : Cached α) (cache : FormatCache) : FormatCache :=
  match x cache with
  | .ok _ cache => cache
  | .error _ cache => cache

/-- From every cache with `I`, `x` has the outcome `y` and leaves a cache with `I`. -/
def Agrees (I : FormatCache → Prop) (x : Cached α) (y : Except Fault α) : Prop :=
  ∀ cache, I cache → x.result cache = y ∧ I (x.cacheAfter cache)

namespace Agrees

theorem pure (a : α) : Agrees I (Pure.pure a) (.ok a) :=
  fun _ h => ⟨rfl, h⟩

theorem throw (e : Fault) : Agrees I (throwThe Fault e : Cached α) (.error e) :=
  fun _ h => ⟨rfl, h⟩

theorem lift (x : Except Fault α) : Agrees I (Fault.lift x : Cached α) (Fault.lift x) := by
  cases x with
  | ok a => exact pure a
  | error e => exact throw e

theorem bind {x : Cached α} {y : Except Fault α} {f : α → Cached β} {g : α → Except Fault β}
    (hx : Agrees I x y) (hf : ∀ a, y = .ok a → Agrees I (f a) (g a)) :
    Agrees I (x >>= f) (y >>= g) := by
  intro cache hc
  obtain ⟨hr, ha⟩ := hx cache hc
  show result (EStateM.bind x f) cache = _ ∧ I (cacheAfter (EStateM.bind x f) cache)
  simp only [result, cacheAfter, EStateM.bind] at hr ha ⊢
  cases hxc : x cache with
  | error e cache' =>
    rw [hxc] at hr ha
    subst hr
    exact ⟨rfl, ha⟩
  | ok a cache' =>
    rw [hxc] at hr ha
    exact hr ▸ hf a hr.symm cache' ha

/-- Going on from a computation that succeeds. -/
theorem bind_ok {x : Cached α} {a : α} {f : α → Cached β} {z : Except Fault β}
    (hx : Agrees I x (.ok a)) (hf : Agrees I (f a) z) : Agrees I (x >>= f) z :=
  bind (y := .ok a) (g := fun _ => z) hx fun _ h => Except.ok.inj h ▸ hf

/-- Trying a computation never raises; the outcome is what it would have raised or returned. -/
theorem attempt {x : Cached α} {y : Except Fault α} (h : Agrees I x y) :
    Agrees I (Cached.attempt x) (.ok y) := by
  intro cache hc
  obtain ⟨hr, ha⟩ := h cache hc
  simp only [result, cacheAfter, Cached.attempt] at hr ha ⊢
  cases hxc : x cache <;> rw [hxc] at hr ha <;> subst hr <;> exact ⟨rfl, ha⟩

end Agrees

end Cached

open Cached (Agrees)

/-! ## Sound caches -/

/-- All that is remembered is usable, and is what its entry says. -/
def FormatCache.Sound (t : Table) (cache : FormatCache) : Prop :=
  ∀ (i : Nat) (f : FormatString), cache[i]? = some f → t.readAt i = .ok f ∧ t.Usable i

namespace FormatCache

variable {t : Table} {cache : FormatCache} {i : Nat} {f : FormatString}

theorem Sound.empty (t : Table) : FormatCache.Sound t {} := by
  intro i f h
  simp at h

theorem Sound.insert (h : FormatCache.Sound t cache) (hf : t.readAt i = .ok f) (hu : t.Usable i) :
    FormatCache.Sound t (cache.insert i f) := by
  intro j g hj
  rw [Std.TreeMap.getElem?_insert] at hj
  split at hj
  · next heq =>
    obtain rfl := Std.LawfulEqCmp.eq_of_compare heq
    obtain rfl := Option.some.inj hj
    exact ⟨hf, hu⟩
  · exact h j g hj

end FormatCache

/-! ## The walk with a memory -/

theorem visitAll_agrees {I : FormatCache → Prop} {v : Nat → Cached FormatString}
    {w : Nat → Except Fault FormatString} {targets : List Nat}
    (h : ∀ j ∈ targets, Agrees I (v j) (w j)) : Agrees I (visitAll v targets) (visitAll w targets) := by
  induction targets with
  | nil => exact .pure ()
  | cons j rest ih =>
    refine .bind (h j List.mem_cons_self) fun _ _ => ?_
    exact ih fun k hk => h k (List.mem_cons_of_mem _ hk)

namespace Table

variable {t : Table} {path : List Nat} {index steps : Nat}

theorem visitTarget_agrees {I : FormatCache → Prop} {v : Nat → Cached FormatString}
    {w : Nat → Except Fault FormatString} {target : Nat} (h : Agrees I (v target) (w target)) :
    Agrees I (t.visitTarget index v target) (t.visitTarget index w target) := by
  unfold visitTarget
  split
  · exact h
  · exact .throw _

/-- A step of the walk on an entry that is not remembered. -/
def walkMiss {m : Type → Type} [Monad m] [MonadExceptOf Fault m] (t : Table) (memo : Memo m)
    (steps : Nat) (path : List Nat) (index : Nat) : m FormatString :=
  if path.contains index then throwThe Fault (.cyclic index path)
  else do
    let e ← Fault.lift (t.lookup index)
    let f ← Fault.lift e.readFormat
    visitAll (t.visitTarget index (t.walk memo steps (path ++ [index]))) f.nestedTargets
    memo.store index f
    pure f

theorem walk_none_eq_walkMiss :
    t.walk Memo.none (steps + 1) path index = t.walkMiss Memo.none steps path index := by
  rw [walk]
  rfl

theorem walk_memo_of_some {cache : FormatCache} {f : FormatString} (h : cache[index]? = some f) :
    t.walk Cached.memo (steps + 1) path index cache = .ok f cache := by
  simp only [walk, Cached.memo, bind, EStateM.bind, h]
  rfl

theorem walk_memo_of_none {cache : FormatCache} (h : cache[index]? = none) :
    t.walk Cached.memo (steps + 1) path index cache =
      t.walkMiss Cached.memo steps path index cache := by
  rw [walk]
  simp only [Cached.memo, bind, EStateM.bind, h]
  rfl

/-- From a sound cache, a walk along a trail has the outcome that it has without a memory. -/
theorem walk_agrees (ht : t.Trail path index) (hsteps : steps + path.length = t.size + 1) :
    Agrees (FormatCache.Sound t) (t.walk Cached.memo steps path index)
      (t.walk Memo.none steps path index) := by
  induction steps generalizing path index with
  | zero => exact .throw _
  | succ steps ih =>
    intro cache hc
    cases hhit : cache[index]? with
    | some f =>
      -- what is remembered is usable, so the walk without a memory succeeds along any trail
      obtain ⟨hf, hu⟩ := hc index f hhit
      simp only [Cached.result, Cached.cacheAfter, walk_memo_of_some hhit]
      exact ⟨(walk_of_usable hu hf ht hsteps).symm, hc⟩
    | none =>
      simp only [Cached.result, Cached.cacheAfter, walk_memo_of_none hhit, walk_none_eq_walkMiss]
      refine (?_ : Agrees _ (t.walkMiss Cached.memo steps path index) _) cache hc
      unfold walkMiss
      split
      · exact .throw _
      · next hnew =>
        replace hnew : index ∉ path := by simpa using hnew
        refine .bind (.lift _) fun e he => .bind (.lift _) fun f hf => ?_
        rw [Fault.lift_eq_self] at he hf
        have hread : t.readAt index = .ok f := by rw [readAt, he]; exact hf
        refine .bind (visitAll_agrees fun j hj => visitTarget_agrees ?_) fun _ hv => ?_
        · refine ih (ht.snoc hread hj hnew) ?_
          rw [List.length_append, List.length_singleton]
          omega
        · refine .bind (y := .ok ()) (fun cache hc => ⟨rfl, ?_⟩) fun _ _ => .pure f
          refine hc.insert hread (.intro hread fun j hj => ?_)
          obtain ⟨g, hg⟩ := visitAll_eq_ok_iff.mp hv j hj
          exact (usable_of_walk (visitTarget_eq_ok_iff.mp hg).2).2

/-! ## Caches that arise -/

/-- The caches that looking up formats leads to, from none at all. Everything that uses a table remembers
formats in this way only. -/
inductive Remembers (t : Table) : FormatCache → Prop
  | nothing : Remembers t {}
  | format {cache : FormatCache} (index : Nat) :
      Remembers t cache → Remembers t ((t.format index).cacheAfter cache)

theorem Remembers.sound {cache : FormatCache} (h : t.Remembers cache) :
    FormatCache.Sound t cache := by
  induction h with
  | nothing => exact .empty t
  | format index _ ih => exact (walk_agrees (.nil t index) (by simp) _ ih).2

/-- Looking up a format has the same outcome with and without a memory. -/
theorem format_agrees (t : Table) (index : Nat) :
    Agrees t.Remembers (t.format index) (t.freshFormat index) :=
  fun cache hc => ⟨(walk_agrees (.nil t index) (by simp) cache hc.sound).1, hc.format index⟩

end Table

end DeferredLog
