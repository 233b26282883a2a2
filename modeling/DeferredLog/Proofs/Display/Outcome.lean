import DeferredLog.Proofs.Display.FloatRange
import DeferredLog.Proofs.Display.Memory
import DeferredLog.Proofs.FormatString.Slots
import DeferredLog.Proofs.Table.Defects
import DeferredLog.Proofs.Wire.Encoding

/-!
# What can go wrong when values are shown

Values that conform to the slots of a format string can all be shown in it, except for those numbers of
binary32 whose rounding is out of range. Nothing else goes wrong: every directive has an argument, a bit
field comes under a bit range, and the formats of nested values are found again.
-/

namespace DeferredLog

/-! ## Numbers inside a value -/

/-- A floating-point number occurs somewhere inside a value. -/
inductive Value.Holds : Value → FloatValue → Prop
  | self (x : FloatValue) : Holds (.float x) x
  | argument {index : Nat} {args : List Value} {v : Value} {x : FloatValue} :
      v ∈ args → Holds v x → Holds (.nested index args) x
  | element {index : Option Nat} {elements : List Value} {v : Value} {x : FloatValue} :
      v ∈ elements → Holds v x → Holds (.formatSlice index elements) x

/-- No number inside a value is out of range. -/
def Value.Displayable (v : Value) : Prop := ∀ p, v.Holds (.f32 p) → ¬ Display.RoundsOut p

namespace Value

theorem displayable_nested_iff {index : Nat} {args : List Value} :
    (nested index args).Displayable ↔ ∀ v ∈ args, v.Displayable := by
  constructor
  · exact fun h v hv p hp => h p (.argument hv hp)
  · intro h p hp
    cases hp with
    | argument hv hp => exact h _ hv p hp

theorem displayable_formatSlice_iff {index : Option Nat} {elements : List Value} :
    (formatSlice index elements).Displayable ↔ ∀ v ∈ elements, v.Displayable := by
  constructor
  · exact fun h v hv p hp => h p (.element hv hp)
  · intro h p hp
    cases hp with
    | element hv hp => exact h _ hv p hp

theorem displayable_float_iff {x : FloatValue} {hint : Option Hint} :
    (float x).Displayable ↔ Display.floatText x hint ≠ none := by
  rw [Ne, Display.floatText_eq_none_iff]
  constructor
  · rintro h ⟨p, rfl, hp⟩
    exact h p (.self _) hp
  · intro h p hp
    cases hp with
    | self => exact fun hout => h ⟨p, rfl, hout⟩

end Value

/-! ## Slots of a table's formats -/

/-- Whatever metadata a format is read from, it has a slot for each of its directives. -/
theorem Entry.wellSlotted_of_readFormat {e : Entry} {f : FormatString} (h : e.readFormat = .ok f) :
    f.WellSlotted := by
  have hplain (fragments : List Fragment) (hnone : (FormatString.mk fragments []).directives = []) :
      (FormatString.mk fragments []).WellSlotted := by
    constructor
    · simp [hnone]
    · simp
  unfold Entry.readFormat at h
  split at h
  · split at h
    · next hparse =>
      obtain rfl := Except.ok.inj h
      exact FormatString.wellSlotted_of_parse hparse
    · cases h
  · split at h
    · next items hitems =>
      obtain rfl := Except.ok.inj h
      simp only [NoFormat.ofItems] at hitems
      split at hitems
      · cases hitems
      · split at hitems
        · cases hitems
        · split at hitems <;> obtain rfl := Except.ok.inj hitems <;> exact hplain _ rfl
    · cases h
  · obtain rfl := Except.ok.inj h
    exact hplain [] rfl
  all_goals cases h

/-- Formats that can be had have a slot for each of their directives. -/
theorem Table.wellSlotted_of_freshFormat {t : Table} {index : Nat} {f : FormatString}
    (h : t.freshFormat index = .ok f) : f.WellSlotted := by
  have hread := (Table.freshFormat_eq_ok_iff.mp h).1
  unfold Table.readAt at hread
  split at hread
  · exact Entry.wellSlotted_of_readFormat hread
  · cases hread

namespace Display

/-! ## Outcomes -/

/-- The outcome is something with `Q` if `P` holds, and otherwise the fault of a number that is out of
range. -/
inductive Decides {α : Type} (P : Prop) (Q : α → Prop) : Except Fault α → Prop
  | shown {a : α} : P → Q a → Decides P Q (.ok a)
  | refused : ¬ P → Decides P Q (.error (.display .floatRange))

namespace Decides

variable {α β : Type} {P S : Prop} {Q : α → Prop} {R : β → Prop} {x : Except Fault α}
  {f : α → Except Fault β}

theorem congr (h : Decides P Q x) (hP : P ↔ S) : Decides S Q x := by
  cases h with
  | shown hp hq => exact .shown (hP.mp hp) hq
  | refused hp => exact .refused (hP.not.mp hp)

theorem bind (h : Decides P Q x) (hf : ∀ a, Q a → Decides S R (f a)) :
    Decides (P ∧ S) R (x >>= f) := by
  cases h with
  | refused hp => exact .refused fun h => hp h.1
  | @shown a hp hq =>
    show Decides (P ∧ S) R (f a)
    exact (hf a hq).congr ⟨fun h => ⟨hp, h⟩, fun h => h.2⟩

/-- Going on with something that cannot fail. -/
theorem map (h : Decides P Q x) {g : α → β} (hg : ∀ a, Q a → R (g a)) :
    Decides P R (x >>= fun a => .ok (g a)) :=
  (h.bind (S := True) fun a ha => .shown trivial (hg a ha)).congr (and_iff_left trivial)

end Decides

/-! ## Pieces -/

/-- A piece that is characters. -/
def Piece.IsChars (p : Piece) : Prop := ∃ cs, p = .chars cs

theorem exists_joinPieces {ps : List Piece} (h : ∀ p ∈ ps, p.IsChars) :
    ∃ cs, joinPieces ps = .ok cs := by
  induction ps with
  | nil => exact ⟨[], rfl⟩
  | cons p ps ih =>
    obtain ⟨cs, rfl⟩ := h p List.mem_cons_self
    obtain ⟨tail, htail⟩ := ih fun q hq => h q (List.mem_cons_of_mem _ hq)
    exact ⟨cs ++ tail, by rw [joinPieces, htail]⟩

/-- A directive can show a value: only bit fields ask for more than a value. -/
def Suits (d : Directive) (v : Value) : Prop :=
  ∀ r n, v = .bitfield r n → ∃ r', d.type = .bitfield r'

/-- The value is shown, unless it holds a number that is out of range. -/
def ValueShown (formats : Nat → Except Fault FormatString) (v : Value) : Prop :=
  ∀ d hint, Suits d v → Decides v.Displayable Piece.IsChars (renderer formats v d hint)

variable {formats : Nat → Except Fault FormatString} {args : List Value}

theorem pieces_decides (hargs : ∀ v ∈ args, ValueShown formats v) (inherited : Option Hint)
    (fragments : List Fragment)
    (hfit : ∀ d, .directive d ∈ fragments → ∃ v, args[d.position]? = some v ∧ Suits d v) :
    Decides (∀ d, .directive d ∈ fragments → ∀ v, args[d.position]? = some v → v.Displayable)
      (fun ps => ∀ p ∈ ps, p.IsChars) (pieces (renderers formats args) inherited fragments) := by
  induction fragments with
  | nil => exact .shown (by simp) (by simp)
  | cons fragment rest ih =>
    have hrest := ih fun d hd => hfit d (List.mem_cons_of_mem _ hd)
    cases fragment with
    | literal s =>
      refine (hrest.map fun ps hps => ?_).congr (by simp)
      simpa using ⟨⟨_, rfl⟩, hps⟩
    | directive d =>
      obtain ⟨v, hv, hsuits⟩ := hfit d List.mem_cons_self
      simp only [pieces, renderers_eq_map, List.getElem?_map, hv, Option.map_some] at hrest ⊢
      refine ((hargs v (List.mem_of_getElem? hv) d _ hsuits).bind fun p hp =>
        hrest.map fun ps hps => ?_).congr ?_
      · simpa using ⟨hp, hps⟩
      · simp only [List.mem_cons, Fragment.directive.injEq, forall_eq_or_imp, hv, Option.some.injEq,
          forall_eq']

theorem suits_of_covers {t : Table} {slot : ArgType} {d : Directive} {v : Value}
    (hcovers : slot.Covers d.type) (hv : Wire.Conforms t slot v) : Suits d v := by
  rintro r n rfl
  cases hv with
  | bitfield _ _ =>
    generalize d.type = type at hcovers ⊢
    cases hcovers with
    | refl => exact ⟨r, rfl⟩
    | @bitfield _ r' _ _ _ => exact ⟨r', rfl⟩

/-- Every directive finds an argument that suits it. -/
theorem exists_argument {t : Table} {f : FormatString} (hf : f.WellSlotted)
    (hconforms : List.Forall₂ (Wire.Conforms t) f.arguments args) {d : Directive}
    (hd : d ∈ f.directives) : ∃ v, args[d.position]? = some v ∧ Suits d v := by
  obtain ⟨slot, hslot, hcovers⟩ := hf.covered d hd
  obtain ⟨hpos, rfl⟩ := List.getElem?_eq_some_iff.mp hslot
  obtain ⟨hlen, hall⟩ := List.forall₂_iff_get.mp hconforms
  have hv := hall d.position hpos (hlen ▸ hpos)
  exact ⟨_, List.getElem?_eq_getElem (hlen ▸ hpos), suits_of_covers hcovers hv⟩

/-- A format string can be filled in with values that conform to its slots. -/
theorem fill_decides {t : Table} {f : FormatString} (hf : f.WellSlotted)
    (hconforms : List.Forall₂ (Wire.Conforms t) f.arguments args)
    (hargs : ∀ v ∈ args, ValueShown formats v) (inherited : Option Hint) :
    Decides (∀ v ∈ args, v.Displayable) (fun _ => True) (fill f (renderers formats args) inherited) := by
  have hpieces := pieces_decides hargs inherited f.fragments fun d hd =>
    exists_argument hf hconforms (FormatString.mem_directives_iff.mpr hd)
  refine (hpieces.bind (S := True) fun ps hps => ?_).congr ?_
  · obtain ⟨cs, hcs⟩ := exists_joinPieces hps
    rw [hcs]
    exact .shown trivial trivial
  · -- every argument is shown by some directive
    rw [and_iff_left trivial]
    constructor
    · intro h v hv
      obtain ⟨i, hi, rfl⟩ := List.mem_iff_getElem.mp hv
      obtain ⟨d, hd, rfl⟩ := hf.used i (hconforms.length_eq ▸ hi)
      exact h d (FormatString.mem_directives_iff.mp hd) _ (List.getElem?_eq_getElem hi)
    · exact fun h d _ v hv => h v (List.mem_of_getElem? hv)

theorem elementTexts_decides {elements : List Value} (h : ∀ v ∈ elements, ValueShown formats v)
    (d : Directive) (hint : Option Hint) (hsuits : ∀ v ∈ elements, Suits d v) :
    Decides (∀ v ∈ elements, v.Displayable) (fun _ => True)
      (elementTexts d hint (renderers formats elements)) := by
  induction elements with
  | nil => exact .shown (by simp) trivial
  | cons v rest ih =>
    have hrest := ih (fun w hw => h w (List.mem_cons_of_mem _ hw))
      fun w hw => hsuits w (List.mem_cons_of_mem _ hw)
    simp only [renderers, elementTexts]
    have hfirst := h v List.mem_cons_self d hint (hsuits v List.mem_cons_self)
    refine (hfirst.bind (S := ∀ w ∈ rest, w.Displayable) fun p hp => ?_).congr ?_
    · obtain ⟨cs, rfl⟩ := hp
      exact hrest.map fun _ _ => trivial
    · simp

/-! ## Values -/

theorem exists_bitfieldText {d : Directive} {r : BitRange} (hd : d.type = .bitfield r) (n : Nat)
    (hint : Option Hint) : ∃ cs, bitfieldText d n hint = .ok cs := by
  have hlow := r.low_lt_high
  have hextract : ∃ k, extractBits? n r.low r.high = some k := by
    unfold extractBits?
    rw [if_neg (by omega)]
    exact ⟨_, rfl⟩
  obtain ⟨k, hk⟩ := hextract
  rw [bitfieldText, hd]
  dsimp only
  rw [hk]
  exact ⟨_, rfl⟩

theorem exists_tableText (s : String) (hint : Option Hint) :
    ∃ cs, tableText (.string s) hint = .ok (.chars cs) := by
  unfold tableText
  split
  · exact ⟨_, rfl⟩
  · exact ⟨_, rfl⟩

variable {t : Table} (ht : t.HasTextFormats)

include ht

theorem exists_text_of_lookup {index : Nat} {e : Entry} (he : t.lookup index = .ok e) :
    ∃ s, e.format = .string s := by
  rw [Table.lookup_natCast] at he
  split at he
  · next entry hentry => exact Except.ok.inj he ▸ ht index entry hentry
  · cases he

/-- Values that conform are shown, unless they hold a number that is out of range. -/
theorem valueShown_of_conforms {v : Value} {slot : ArgType} (hv : Wire.Conforms t slot v) :
    ValueShown t.freshFormat v := by
  induction v using Value.induction generalizing slot with
  | float x =>
    intro d hint _
    have hiff : (Value.float x).Displayable ↔ floatText x hint ≠ none := Value.displayable_float_iff
    simp only [renderer]
    cases hx : floatText x hint with
    | some cs => exact .shown (hiff.mpr (by simp [hx])) ⟨cs, rfl⟩
    | none => exact .refused fun h => hiff.mp h hx
  | nested index args ih =>
    intro d hint _
    obtain ⟨f, hf, hargs⟩ : ∃ f, t.freshFormat index = .ok f ∧
        List.Forall₂ (Wire.Conforms t) f.arguments args := by
      cases hv with
      | format _ hf hargs => exact ⟨_, hf, hargs⟩
      | nested hf hargs => exact ⟨_, hf, hargs⟩
    have hshown (v : Value) (hmem : v ∈ args) : ValueShown t.freshFormat v := by
      obtain ⟨i, hi, rfl⟩ := List.mem_iff_getElem.mp hmem
      obtain ⟨hlen, hall⟩ := List.forall₂_iff_get.mp hargs
      exact ih _ hmem (hall i (hlen ▸ hi) hi)
    have hfill := fill_decides (Table.wellSlotted_of_freshFormat hf) hargs hshown hint
    simp only [renderer, hf]
    exact (hfill.map fun cs _ => ⟨cs, rfl⟩).congr Value.displayable_nested_iff.symm
  | formatSlice index elements ih =>
    intro d hint _
    have hall (v : Value) (hmem : v ∈ elements) :
        ValueShown t.freshFormat v ∧ Suits d v := by
      cases hv with
      | noElements => cases hmem
      | elements hindex _ _ hf hargs =>
        -- an element conforms like a value of the same entry that travels with its index
        obtain ⟨args, hmem', rfl⟩ := List.mem_map.mp hmem
        exact ⟨ih _ hmem (.format hindex hf (hargs args hmem')), fun r n h => by cases h⟩
    have htexts := elementTexts_decides (fun v hmem => (hall v hmem).1) d hint
      fun v hmem => (hall v hmem).2
    simp only [renderer]
    exact (htexts.map fun texts _ => ⟨_, rfl⟩).congr Value.displayable_formatSlice_iff.symm
  | bitfield r n =>
    intro d hint hsuits
    obtain ⟨r', hr'⟩ := hsuits r n rfl
    obtain ⟨cs, hcs⟩ := exists_bitfieldText hr' n hint
    simp only [renderer, hcs]
    exact .shown (fun p hp => by cases hp) ⟨cs, rfl⟩
  | istr index format =>
    intro d hint _
    obtain ⟨s, rfl⟩ : ∃ s, format = .string s := by
      cases hv with
      | istr _ he => exact exists_text_of_lookup ht he
    obtain ⟨cs, hcs⟩ := exists_tableText s hint
    simp only [renderer, hcs]
    exact .shown (fun p hp => by cases hp) ⟨cs, rfl⟩
  | _ => exact fun d hint _ => .shown (fun p hp => by cases hp) ⟨_, rfl⟩

end Display

end DeferredLog
