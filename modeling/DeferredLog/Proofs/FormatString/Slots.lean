import DeferredLog.FormatString.Parser
import Mathlib.Data.List.Perm.Subperm

/-!
# Directives and their slots

A format string that is read has one argument slot for every position of its directives and no others,
and the type of a slot covers the types of all directives on it: it is the same, or a bit range that
contains theirs.

    FormatString.parse text = .ok f → f.WellSlotted                             (wellSlotted_of_parse)
-/

namespace DeferredLog

/-! ## Types of one slot -/

/-- A slot of the first type carries what a directive of the second one shows. -/
inductive ArgType.Covers : ArgType → ArgType → Prop
  | refl (type : ArgType) : Covers type type
  | bitfield {a b : BitRange} : b.backing = a.backing → a.low ≤ b.low → b.high ≤ a.high →
      Covers (.bitfield a) (.bitfield b)

theorem ArgType.Covers.trans {a b c : ArgType} (h : a.Covers b) (h' : b.Covers c) : a.Covers c := by
  cases h with
  | refl => exact h'
  | bitfield hbacking hlow hhigh =>
    cases h' with
    | refl => exact .bitfield hbacking hlow hhigh
    | bitfield hbacking' hlow' hhigh' =>
      exact .bitfield (hbacking'.trans hbacking) (Nat.le_trans hlow hlow') (Nat.le_trans hhigh' hhigh)

namespace Slots

variable {slots entered : Slots} {position q : Nat} {type first second merged t : ArgType}
  {ds : List Directive}

theorem covers_of_merge (h : merge position first second = .ok merged) :
    merged.Covers first ∧ merged.Covers second := by
  unfold merge at h
  split at h
  · next heq =>
    obtain rfl := Except.ok.inj h
    exact ⟨.refl _, heq ▸ .refl _⟩
  · split at h
    · next a b _ =>
      split at h
      · next hbacking =>
        obtain rfl := Except.ok.inj h
        exact ⟨.bitfield rfl (Nat.min_le_left ..) (Nat.le_max_left ..),
          .bitfield hbacking (Nat.min_le_right ..) (Nat.le_max_right ..)⟩
      · cases h
    · cases h

/-! ## Entering directives -/

/-- What entering one or more directives does to the slots. -/
structure Entered (slots entered : Slots) (ds : List Directive) : Prop where
  /-- A slot that was there is still there, and covers what it covered. -/
  kept : ∀ q t, slots.lookup q = some t → ∃ t', entered.lookup q = some t' ∧ t'.Covers t
  /-- The directives have slots. -/
  covered : ∀ d ∈ ds, ∃ t, entered.lookup d.position = some t ∧ t.Covers d.type
  /-- No other slots have been made. -/
  used : ∀ q, (entered.lookup q).isSome = true →
    (slots.lookup q).isSome = true ∨ ∃ d ∈ ds, d.position = q

theorem lookup_cons (p q : Nat) (t : ArgType) (slots : Slots) :
    List.lookup q ((p, t) :: slots) = if q = p then some t else slots.lookup q := by
  rw [List.lookup_cons]
  by_cases h : q = p
  · rw [if_pos h, beq_iff_eq.mpr h]
  · rw [if_neg h, beq_eq_false_iff_ne.mpr h]

theorem lookup_enter (h : enter position type slots = .ok entered) (q : Nat) :
    if q = position then
      ∃ merged, entered.lookup q = some merged ∧ merged.Covers type ∧
        ∀ t, slots.lookup q = some t → merged.Covers t
    else entered.lookup q = slots.lookup q := by
  induction slots generalizing entered with
  | nil =>
    obtain rfl := Except.ok.inj h
    split
    · next heq => exact ⟨type, by rw [lookup_cons, if_pos heq], .refl _, fun t ht => by cases ht⟩
    · next hne => rw [lookup_cons, if_neg hne]
  | cons slot rest ih =>
    obtain ⟨p, t⟩ := slot
    unfold enter at h
    split at h
    · next hp =>
      subst hp
      split at h
      · next merged hmerged =>
        obtain rfl := Except.ok.inj h
        obtain ⟨hfirst, hsecond⟩ := covers_of_merge hmerged
        split
        · next heq =>
          refine ⟨merged, by rw [lookup_cons, if_pos heq], hsecond, fun t' ht' => ?_⟩
          rw [lookup_cons, if_pos heq] at ht'
          exact Option.some.inj ht' ▸ hfirst
        · next hne => rw [lookup_cons, lookup_cons, if_neg hne, if_neg hne]
      · cases h
    · next hp =>
      split at h
      · next rest' hrest =>
        obtain rfl := Except.ok.inj h
        have hq := ih hrest
        rw [lookup_cons, lookup_cons]
        by_cases hqp : q = p
        · have hne : q ≠ position := fun heq => hp (hqp.symm.trans heq)
          rw [if_neg hne, if_pos hqp, if_pos hqp]
        · rw [if_neg hqp, if_neg hqp]
          exact hq
      · cases h

theorem entered_of_enterAll (h : enterAll slots ds = .ok entered) : Entered slots entered ds := by
  induction ds generalizing slots with
  | nil =>
    obtain rfl := Except.ok.inj h
    exact ⟨fun q t ht => ⟨t, ht, .refl t⟩, by simp, fun q hq => .inl hq⟩
  | cons d ds ih =>
    unfold enterAll at h
    split at h
    · next middle hmiddle =>
      have hrest := ih h
      have hone := lookup_enter hmiddle
      constructor
      · intro q t ht
        have hq := hone q
        split at hq
        · obtain ⟨t₁, ht₁, -, hcovers⟩ := hq
          obtain ⟨t₂, ht₂, hcovers'⟩ := hrest.kept q t₁ ht₁
          exact ⟨t₂, ht₂, hcovers'.trans (hcovers t ht)⟩
        · exact hrest.kept q t (hq.trans ht)
      · intro d' hd'
        rcases List.mem_cons.mp hd' with rfl | hd'
        · have hq := hone d'.position
          rw [if_pos rfl] at hq
          obtain ⟨t₁, ht₁, hcovers, -⟩ := hq
          obtain ⟨t₂, ht₂, hcovers'⟩ := hrest.kept _ t₁ ht₁
          exact ⟨t₂, ht₂, hcovers'.trans hcovers⟩
        · exact hrest.covered d' hd'
      · intro q hq
        rcases hrest.used q hq with hmid | ⟨d', hd', hpos⟩
        · have hq := hone q
          split at hq
          · next heq => exact .inr ⟨d, List.mem_cons_self, heq.symm⟩
          · exact .inl (hq ▸ hmid)
        · exact .inr ⟨d', List.mem_cons_of_mem _ hd', hpos⟩
    · cases h

/-! ## Slots in wire order -/

theorem lookup_of_typesFrom {first count : Nat} {ts : List ArgType}
    (h : typesFrom slots first count = .ok ts) :
    ts.length = count ∧ ∀ i < count, slots.lookup (first + i) = ts[i]? := by
  induction count generalizing first ts with
  | zero =>
    obtain rfl := Except.ok.inj h
    exact ⟨rfl, fun i hi => by omega⟩
  | succ count ih =>
    unfold typesFrom at h
    split at h
    · cases h
    · next t ht =>
      split at h
      · next ts' hts =>
        obtain rfl := Except.ok.inj h
        obtain ⟨hlen, hall⟩ := ih hts
        refine ⟨by rw [List.length_cons, hlen], fun i hi => ?_⟩
        cases i with
        | zero => exact ht
        | succ i =>
          rw [List.getElem?_cons_succ, ← hall i (by omega)]
          congr 1
          omega
      · cases h

theorem mem_keys_of_lookup (h : slots.lookup q = some t) : q ∈ slots.map Prod.fst := by
  obtain ⟨before, after, rfl, -⟩ := List.lookup_eq_some_iff.mp h
  simp

/-- If as many positions as there are slots are in use from `0` on, no others are. -/
theorem lookup_eq_arguments {ts : List ArgType} (h : slots.arguments = .ok ts) :
    ts.length = slots.length ∧ ∀ q, slots.lookup q = ts[q]? := by
  obtain ⟨hlen, hall⟩ := lookup_of_typesFrom h
  refine ⟨hlen, fun q => ?_⟩
  by_cases hq : q < slots.length
  · rw [← hall q hq, Nat.zero_add]
  · rw [List.getElem?_eq_none (by omega)]
    have hsub : List.range slots.length ⊆ slots.map Prod.fst := by
      intro i hi
      have hi' := List.mem_range.mp hi
      have hlookup := hall i hi'
      rw [Nat.zero_add, List.getElem?_eq_getElem (by omega)] at hlookup
      exact mem_keys_of_lookup hlookup
    have hperm : (List.range slots.length).Perm (slots.map Prod.fst) :=
      (List.subperm_of_subset List.nodup_range hsub).perm_of_length_le (by simp)
    cases hlookup : slots.lookup q with
    | none => rfl
    | some t => exact absurd (List.mem_range.mp (hperm.mem_iff.mpr (mem_keys_of_lookup hlookup))) hq

end Slots

/-! ## Format strings -/

namespace FormatString

/-- Slots and directives go together. -/
structure WellSlotted (f : FormatString) : Prop where
  covered : ∀ d ∈ f.directives, ∃ slot, f.arguments[d.position]? = some slot ∧ slot.Covers d.type
  used : ∀ i < f.arguments.length, ∃ d ∈ f.directives, d.position = i

theorem mem_directives_iff {f : FormatString} {d : Directive} :
    d ∈ f.directives ↔ .directive d ∈ f.fragments := by
  rw [directives, List.mem_filterMap]
  constructor
  · rintro ⟨fragment, hmem, hd⟩
    cases fragment with
    | literal s => cases hd
    | directive d' => exact Option.some.inj hd ▸ hmem
  · exact fun hmem => ⟨_, hmem, rfl⟩

theorem directives_append (fs gs : List Fragment) (ts : List ArgType) :
    (FormatString.mk (fs ++ gs) ts).directives =
      (FormatString.mk fs ts).directives ++ (FormatString.mk gs ts).directives :=
  List.filterMap_append

theorem directives_literalRun (run : List Char) (ts : List ArgType) :
    (FormatString.mk (literalRun run) ts).directives = [] := by
  cases run <;> rfl

theorem directives_join (run : List Char) (pieces : List Piece) (ts : List ArgType) :
    (FormatString.mk (join run pieces) ts).directives = directivesOf pieces := by
  induction pieces generalizing run with
  | nil => exact directives_literalRun run ts
  | cons piece pieces ih =>
    cases piece with
    | char c => exact ih (c :: run)
    | directive d =>
      rw [join, directives_append, directives_literalRun, List.nil_append, directivesOf, ← ih []]
      rfl

/-- In a format string that is read, slots and directives go together. -/
theorem wellSlotted_of_parse {text : String} {f : FormatString} (h : parse text = .ok f) :
    f.WellSlotted := by
  simp only [parse] at h
  split at h
  · cases h
  · next slots hslots =>
    split at h
    · cases h
    · split at h
      · next arguments harguments =>
        obtain rfl := Except.ok.inj h
        have hentered := Slots.entered_of_enterAll hslots
        obtain ⟨-, hlookup⟩ := Slots.lookup_eq_arguments harguments
        constructor
        · intro d hd
          rw [directives_join] at hd
          obtain ⟨slot, hslot, hcovers⟩ := hentered.covered d hd
          exact ⟨slot, (hlookup _).symm.trans hslot, hcovers⟩
        · intro i hi
          rw [directives_join]
          have hsome : (slots.lookup i).isSome = true := by
            rw [hlookup i, List.getElem?_eq_getElem hi]
            rfl
          rcases hentered.used i hsome with hnone | hd
          · cases hnone
          · exact hd
      · cases h

end FormatString

end DeferredLog
