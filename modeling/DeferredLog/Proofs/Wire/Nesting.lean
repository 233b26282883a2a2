import DeferredLog.Proofs.Wire.Conformance

/-!
# What a lower limit of nesting changes

A table may allow values to nest deeper or less deep. A lower limit cuts off the values that are nested
deeper: everything else is read as before, and in place of such a value there is a fault. `Cuts` says so
of any two readings, and is kept by everything that readings are made of. All three ways of nesting,
by an index on the wire, by a fixed one and as an element of a slice, lead through `nestedValue`, which is
where the limits are compared.

    Cuts (fun v => v.nesting ≤ levels) (.value (.tooDeep limit))
      (nestedValue (t.withLimit higher) t.freshFormat levels' index)
      (nestedValue (t.withLimit limit) t.freshFormat levels index)               (nestedValue_cuts)
-/

namespace DeferredLog

/-! ## Tables with another limit -/

namespace Table

variable (t : Table) (limit : Nat)

/-- The same table with another limit of nesting. -/
def withLimit : Table := { t with maxDepth := limit }

/-- It is what the same entries make. -/
theorem ofEntries_withLimit {entries : List Entry} {version : String} {timestamp : Option Nat}
    {maxDepth : Nat} {t : Table} (h : ofEntries entries version timestamp maxDepth = .ok t) (limit : Nat) :
    ofEntries entries version timestamp limit = .ok (t.withLimit limit) := by
  unfold ofEntries at h ⊢
  cases hm : EntryMap.empty.insertAll entries with
  | error e =>
    rw [hm] at h
    cases h
  | ok m =>
    rw [hm] at h
    cases timestamp with
    | none =>
      obtain rfl := Except.ok.inj h
      rfl
    | some i =>
      dsimp only at h ⊢
      split at h
      · next hi =>
        obtain rfl := Except.ok.inj h
        exact dif_pos hi
      · cases h

theorem walk_withLimit (memo : Memo (Except Fault)) (steps : Nat) (path : List Nat) (index : Nat) :
    (t.withLimit limit).walk memo steps path index = t.walk memo steps path index := by
  induction steps generalizing path index with
  | zero => rfl
  | succ steps ih =>
    have hwalk : (t.withLimit limit).walk memo steps (path ++ [index]) =
        t.walk memo steps (path ++ [index]) := funext (ih _)
    rw [walk, walk, hwalk]
    rfl

/-- Which formats can be had has nothing to do with the limit. -/
theorem freshFormat_withLimit : (t.withLimit limit).freshFormat = t.freshFormat :=
  funext (t.walk_withLimit limit Memo.none _ [])

end Table

/-! ## Readings cut off -/

/-- What the first reading returns, the second one returns as well if it has the property, and otherwise
it fails with the fault. -/
def Cuts {α : Type} (P : α → Prop) (e : Fault) (r r' : Cursor → Except Fault (α × Cursor)) : Prop :=
  ∀ c a c', r c = .ok (a, c') → (P a → r' c = .ok (a, c')) ∧ (¬ P a → r' c = .error e)

namespace Cuts

variable {α β γ : Type} {P : α → Prop} {Q : β → Prop} {S : γ → Prop} {e : Fault}
  {r r' : Cursor → Except Fault (α × Cursor)} {s s' : Cursor → Except Fault (γ × Cursor)}

/-- A reading of values that all have the property is not cut. -/
theorem refl (h : Returns r P) : Cuts P e r r :=
  fun c a c' hc => ⟨fun _ => hc, fun hP => absurd (h c a c' hc) hP⟩

theorem pure {a : α} (h : P a) : Cuts P e (fun c => .ok (a, c)) fun c => .ok (a, c) := by
  refine .refl fun c b c' hc => ?_
  obtain ⟨rfl, -⟩ := Prod.mk.inj (Except.ok.inj hc)
  exact h

/-- The same value comes first in both readings. -/
theorem found {x : Except Fault β} {f f' : β → Cursor → Except Fault (γ × Cursor)}
    (h : ∀ b, Cuts S e (f b) (f' b)) :
    Cuts S e (fun c => x >>= fun b => f b c) (fun c => x >>= fun b => f' b c) := by
  intro c a c' hc
  cases x with
  | error e' => cases hc
  | ok b => exact h b c a c' hc

/-- The same reading comes first in both. -/
theorem after {q : Cursor → Except Fault (β × Cursor)} {f f' : β → Cursor → Except Fault (γ × Cursor)}
    (h : ∀ b, Cuts S e (f b) (f' b)) (hs : ∀ c, s c = q c >>= fun p => f p.1 p.2)
    (hs' : ∀ c, s' c = q c >>= fun p => f' p.1 p.2) : Cuts S e s s' := by
  intro c a c' hc
  rw [hs] at hc
  rw [hs']
  cases hq : q c with
  | error e' =>
    rw [hq] at hc
    cases hc
  | ok p =>
    rw [hq] at hc
    exact h p.1 p.2 a c' hc

/-- One reading after another, whose values make one value: it is cut if either of them is. -/
theorem both {q q' : α → Cursor → Except Fault (β × Cursor)} {g : α → β → γ} (hr : Cuts P e r r')
    (hq : ∀ a, Cuts Q e (q a) (q' a)) (hS : ∀ a b, S (g a b) ↔ P a ∧ Q b)
    (hs : ∀ c, s c = r c >>= fun x => q x.1 x.2 >>= fun y => .ok (g x.1 y.1, y.2))
    (hs' : ∀ c, s' c = r' c >>= fun x => q' x.1 x.2 >>= fun y => .ok (g x.1 y.1, y.2)) :
    Cuts S e s s' := by
  intro c w c' hc
  rw [hs] at hc
  rw [hs']
  cases hrc : r c with
  | error e' =>
    rw [hrc] at hc
    cases hc
  | ok x =>
    obtain ⟨a, c₁⟩ := x
    rw [hrc] at hc
    replace hc : (q a c₁ >>= fun y => .ok (g a y.1, y.2)) = .ok (w, c') := hc
    obtain ⟨hkept, hcut⟩ := hr c a c₁ hrc
    cases hqc : q a c₁ with
    | error e' =>
      rw [hqc] at hc
      cases hc
    | ok y =>
      obtain ⟨b, c₂⟩ := y
      rw [hqc] at hc
      obtain ⟨rfl, rfl⟩ := Prod.mk.inj (Except.ok.inj hc)
      obtain ⟨hkept', hcut'⟩ := hq a c₁ b c₂ hqc
      rw [hS]
      by_cases ha : P a
      · rw [hkept ha]
        show (_ → (q' a c₁ >>= _) = _) ∧ (_ → (q' a c₁ >>= _) = _)
        by_cases hb : Q b
        · rw [hkept' hb]
          exact ⟨fun _ => rfl, fun h => absurd ⟨ha, hb⟩ h⟩
        · rw [hcut' hb]
          exact ⟨fun h => absurd h.2 hb, fun _ => rfl⟩
      · rw [hcut ha]
        exact ⟨fun h => absurd h.1 ha, fun _ => rfl⟩

/-- A reading whose value is converted. -/
theorem map {g : α → γ} (hr : Cuts P e r r') (hS : ∀ a, S (g a) ↔ P a)
    (hs : ∀ c, s c = r c >>= fun x => .ok (g x.1, x.2))
    (hs' : ∀ c, s' c = r' c >>= fun x => .ok (g x.1, x.2)) : Cuts S e s s' := by
  have hnothing : Cuts (fun _ : Unit => True) e (fun c => .ok ((), c)) fun c => .ok ((), c) := .pure trivial
  exact hr.both (g := fun a _ => g a) (fun _ => hnothing) (fun a _ => by rw [hS, and_true]) hs hs'

end Cuts

/-! ## Values -/

namespace Wire

variable {t : Table} {nested nested' : Nat → Cursor → Except Fault (Value × Cursor)} {levels : Nat}
  {e : Fault}

theorem nestingAll_cons_le {v : Value} {vs : List Value} :
    Value.nestingAll (v :: vs) ≤ levels ↔ v.nesting ≤ levels ∧ Value.nestingAll vs ≤ levels :=
  Nat.max_le

section
variable (hn : ∀ index, Cuts (fun v => v.nesting ≤ levels) e (nested index) (nested' index))

include hn

theorem elements_cuts (index count : Nat) :
    Cuts (fun vs => Value.nestingAll vs ≤ levels) e (elements (nested index) count)
      (elements (nested' index) count) := by
  induction count with
  | zero => exact .pure (Nat.zero_le _)
  | succ count ih =>
    exact (hn index).both (g := List.cons) (fun _ => ih) (fun _ _ => nestingAll_cons_le) (fun _ => rfl)
      fun _ => rfl

theorem slice_cuts (count : Nat) :
    Cuts (fun v => v.nesting ≤ levels) e (slice nested count) (slice nested' count) := by
  by_cases hmax : maxSliceLength < count
  · intro c v c' h
    rw [slice, if_pos hmax] at h
    cases h
  · by_cases hzero : count = 0
    · have hempty (nested : Nat → Cursor → Except Fault (Value × Cursor)) :
          slice nested count = fun c => .ok (.formatSlice none [], c) := by
        funext c
        rw [slice, if_neg hmax, if_pos hzero]
      rw [hempty, hempty]
      exact .pure (Nat.zero_le _)
    · have hslice (nested : Nat → Cursor → Except Fault (Value × Cursor)) (c : Cursor) :
          slice nested count c = c.uleb128 >>= fun p => elements (nested p.1) count p.2 >>= fun q =>
            .ok (.formatSlice (some p.1) q.1, q.2) := by
        rw [slice, if_neg hmax, if_neg hzero]
      have hfilled (index : Nat) : Cuts (fun v => Value.nesting v ≤ levels) e
          (fun c => elements (nested index) count c >>= fun q =>
            .ok (Value.formatSlice (some index) q.1, q.2))
          fun c => elements (nested' index) count c >>= fun q =>
            .ok (Value.formatSlice (some index) q.1, q.2) :=
        (elements_cuts hn index count).map (g := Value.formatSlice (some index)) (fun _ => Iff.rfl)
          (fun _ => rfl) fun _ => rfl
      exact .after hfilled (hslice nested) (hslice nested')

/-- An argument that is not nested has no levels: it could be read if none were allowed. -/
theorem argument_cuts (type : ArgType) :
    Cuts (fun v => v.nesting ≤ levels) e (argument t nested type) (argument t nested' type) := by
  have hnone : ∀ index, Returns (fun _ => .error e) (NestedConforms t 0 index) :=
    fun _ _ _ _ h => by cases h
  have hflat : Returns (argument t (fun _ _ => .error e) type) fun v => v.nesting ≤ levels :=
    fun c v c' h => Nat.le_trans (argument_returns hnone type c v c' h).2 (Nat.zero_le _)
  cases type with
  | format => exact .after hn (fun c => indexed_eq c nested) fun c => indexed_eq c nested'
  | formatSlice =>
    exact .after (slice_cuts hn) (fun c => formatSlice_eq c nested) fun c => formatSlice_eq c nested'
  | nested tag => exact hn tag.index
  | _ => exact .refl hflat

theorem arguments_cuts (types : List ArgType) :
    Cuts (fun vs => Value.nestingAll vs ≤ levels) e (arguments t nested types)
      (arguments t nested' types) := by
  induction types with
  | nil => exact .pure (Nat.zero_le _)
  | cons type types ih =>
    exact (argument_cuts hn type).both (g := List.cons) (fun _ => ih) (fun _ _ => nestingAll_cons_le)
      (fun _ => rfl) fun _ => rfl

end

/-! ## Limits -/

theorem arguments_withLimit (limit : Nat) (types : List ArgType) (c : Cursor) :
    arguments (t.withLimit limit) nested types c = arguments t nested types c := by
  induction types generalizing c with
  | nil => rfl
  | cons type types ih =>
    rw [arguments, arguments]
    simp only [ih]
    rfl

theorem nestedValue_withLimit {limit levels index : Nat} {f : FormatString} (hf : t.freshFormat index = .ok f)
    (c : Cursor) :
    nestedValue (t.withLimit limit) t.freshFormat (levels + 1) index c =
      arguments t (nestedValue (t.withLimit limit) t.freshFormat levels) f.arguments c >>= fun p =>
        .ok (.nested index p.1, p.2) := by
  rw [nestedValue_eq c hf, arguments_withLimit]

/-- Fewer levels cut off the values that have more. -/
theorem nestedValue_cuts {limit higher levels' : Nat} (hle : levels ≤ levels') (index : Nat) :
    Cuts (fun v => v.nesting ≤ levels) (.value (.tooDeep limit))
      (nestedValue (t.withLimit higher) t.freshFormat levels' index)
      (nestedValue (t.withLimit limit) t.freshFormat levels index) := by
  induction levels generalizing levels' index with
  | zero =>
    intro c v c' h
    have hreturns := nestedValue_returns (t := t.withLimit higher) levels' index
    rw [Table.freshFormat_withLimit] at hreturns
    obtain ⟨f, args, rfl, -⟩ := hreturns c v c' h
    exact ⟨fun hv => absurd hv (Nat.not_succ_le_zero _), fun _ => rfl⟩
  | succ levels ih =>
    obtain ⟨levels', rfl⟩ : ∃ n, levels' = n + 1 := ⟨levels' - 1, by omega⟩
    cases hf : t.freshFormat index with
    | error e =>
      intro c v c' h
      rw [nestedValue, hf] at h
      cases h
    | ok f =>
      exact (arguments_cuts (ih (Nat.le_of_succ_le_succ hle)) f.arguments).map (g := Value.nested index)
        (fun _ => Nat.succ_le_succ_iff) (nestedValue_withLimit hf) (nestedValue_withLimit hf)

theorem decodeArguments_cuts {limit higher : Nat} (hle : limit ≤ higher) (depth : Nat) (f : FormatString) :
    Cuts (fun vs => Value.nestingAll vs ≤ limit - depth) (.value (.tooDeep limit))
      (decodeArguments (t.withLimit higher) t.freshFormat depth f)
      (decodeArguments (t.withLimit limit) t.freshFormat depth f) := by
  have harguments (d : Nat) : decodeArguments (t.withLimit d) t.freshFormat depth f =
      arguments t (nestedValue (t.withLimit d) t.freshFormat (d - depth)) f.arguments :=
    funext (arguments_withLimit d f.arguments)
  rw [harguments, harguments]
  exact arguments_cuts (nestedValue_cuts (Nat.sub_le_sub_right hle depth)) f.arguments

end Wire

end DeferredLog
