import Mathlib
import DeferredLog.Proofs.FormatString.Collecting
import DeferredLog.Proofs.FormatString.Tokens

/-!
# Positions and slots of a format string

Directives that state no position are numbered from zero in text order, whatever stands between them,
so moving the others around changes no position. Together with what directives collect, this says which
texts are format strings and which arguments they have:

    Spells tokens text.toList → (parse text = .ok f ↔ ∃ pieces, Denotes 0 tokens pieces ∧
      f.fragments = join [] pieces ∧ Slots.Collects (directivesOf pieces) f.arguments)
                                                                                 (parse_eq_ok_iff)
    slots of an accepted format string, when a text is refused, and the order of its directives
                                                                                  (argument_slots)
-/

namespace DeferredLog

/-! ## Bodies by themselves -/

namespace Directive

variable {body : List Char} {d : Directive} {implicit other : Nat}

/-- Whether a body states no position. -/
def isImplicit (body : List Char) : Bool := (splitPosition body).1.isNone

/-- Whether a body is one of a directive. -/
def IsWellFormed (body : List Char) : Prop := ∃ d, parse 0 body = .ok d

/-- The position that an implicit directive takes is all that its number changes. -/
theorem parse_eq_map (implicit other : Nat) (body : List Char) :
    parse implicit body =
      (parse other body).map fun d => { d with position := (splitPosition body).1.getD implicit } := by
  rw [parse, parse]
  obtain ⟨position, rest⟩ := splitPosition body
  dsimp only
  cases splitTypeHint? rest with
  | none => rfl
  | some texts =>
    dsimp only
    cases statedType texts.1 with
    | error e => rfl
    | ok type =>
      dsimp only
      cases statedHint texts.2 <;> rfl

theorem position_of_parse (h : parse implicit body = .ok d) :
    d.position = (splitPosition body).1.getD implicit := by
  have hmap := parse_eq_map implicit implicit body
  rw [h] at hmap
  exact congrArg Directive.position (Except.ok.inj hmap)

theorem isWellFormed_of_parse (h : parse implicit body = .ok d) : IsWellFormed body := by
  rw [IsWellFormed, parse_eq_map 0 implicit, h]
  exact ⟨_, rfl⟩

theorem IsWellFormed.exists_parse (h : IsWellFormed body) (implicit : Nat) :
    ∃ d, parse implicit body = .ok d := by
  obtain ⟨d, hd⟩ := h
  rw [parse_eq_map implicit 0, hd]
  exact ⟨_, rfl⟩

theorem nextImplicit_of_isImplicit (h : isImplicit body = true) :
    nextImplicit implicit body = implicit + 1 := if_pos h

theorem nextImplicit_of_not_isImplicit (h : isImplicit body = false) :
    nextImplicit implicit body = implicit := if_neg (by rw [← isImplicit, h]; exact Bool.false_ne_true)

theorem position_of_isImplicit (h : isImplicit body = true) (hd : parse implicit body = .ok d) :
    d.position = implicit := by
  rw [position_of_parse hd, Option.isNone_iff_eq_none.mp h]
  rfl

/-- A directive that states its position is the same wherever it stands. -/
theorem parse_of_not_isImplicit (h : isImplicit body = false) (implicit other : Nat) :
    parse implicit body = parse other body := by
  obtain ⟨position, hposition⟩ : ∃ p, (splitPosition body).1 = some p := by
    rw [isImplicit, Option.isNone_eq_false_iff, Option.isSome_iff_exists] at h
    exact h
  rw [parse_eq_map implicit implicit, parse_eq_map other implicit, hposition]
  rfl

/-- The directives that state their positions. -/
def stated (bodies : List (List Char)) : List Directive :=
  (bodies.filter fun body => !isImplicit body).filterMap fun body => (parse 0 body).toOption

/-- The directives that do not, numbered from `first` on. -/
def numbered (first : Nat) (bodies : List (List Char)) : List Directive :=
  ((bodies.filter isImplicit).zipIdx first).filterMap fun p => (parse p.2 p.1).toOption

end Directive

namespace FormatString

open Directive

variable {tokens tokens' : List Token} {pieces pieces' : List Piece} {implicit : Nat} {text : String}
  {f : FormatString}

/-! ## Numbering -/

theorem isWellFormed_of_denotes (h : Denotes implicit tokens pieces) :
    ∀ body ∈ bodiesOf tokens, IsWellFormed body := by
  induction h with
  | nil => exact fun body hbody => absurd hbody List.not_mem_nil
  | char c _ ih => exact ih
  | directive hd _ ih => exact List.forall_mem_cons.mpr ⟨isWellFormed_of_parse hd, ih⟩

/-- Tokens denote pieces if each of their directives can be read by itself. -/
theorem exists_denotes (implicit : Nat) (h : ∀ body ∈ bodiesOf tokens, IsWellFormed body) :
    ∃ pieces, Denotes implicit tokens pieces := by
  induction tokens generalizing implicit with
  | nil => exact ⟨[], .nil implicit⟩
  | cons token tokens ih =>
    cases token with
    | char c =>
      obtain ⟨pieces, hpieces⟩ := ih implicit h
      exact ⟨_, .char c hpieces⟩
    | directive body =>
      obtain ⟨hbody, hrest⟩ := List.forall_mem_cons.mp h
      obtain ⟨d, hd⟩ := hbody.exists_parse implicit
      obtain ⟨pieces, hpieces⟩ := ih (nextImplicit implicit body) hrest
      exact ⟨_, .directive hd hpieces⟩

/-- Directives stand in the order of their bodies, and those that state a position have it. -/
theorem positions_of_denotes (h : Denotes implicit tokens pieces) :
    List.Forall₂ (fun body d => ∀ p, (splitPosition body).1 = some p → d.position = p)
      (bodiesOf tokens) (directivesOf pieces) := by
  induction h with
  | nil => exact .nil
  | char c _ ih => exact ih
  | directive hd _ ih =>
    refine .cons (fun p hp => ?_) ih
    rw [position_of_parse hd, hp]
    rfl

/-- The others are numbered in text order. -/
theorem implicit_positions (h : Denotes implicit tokens pieces) :
    (((bodiesOf tokens).zip (directivesOf pieces)).filter fun p => isImplicit p.1).map
        (fun p => p.2.position) =
      List.range' implicit ((bodiesOf tokens).countP isImplicit) := by
  induction h with
  | nil => rfl
  | char c _ ih => exact ih
  | @directive implicit tokens pieces body d hd _ ih =>
    rw [bodiesOf, directivesOf, List.zip_cons_cons]
    cases hbody : isImplicit body with
    | true =>
      rw [nextImplicit_of_isImplicit hbody] at ih
      rw [List.filter_cons_of_pos (by exact hbody), List.map_cons, ih,
        List.countP_cons_of_pos (by exact hbody), List.range'_succ, position_of_isImplicit hbody hd]
    | false =>
      rw [nextImplicit_of_not_isImplicit hbody] at ih
      rw [List.filter_cons_of_neg (by simp [hbody]), ih, List.countP_cons_of_neg (by simp [hbody])]

/-- The directives of a text are those that state their positions and those that are numbered. -/
theorem directivesOf_perm (h : Denotes implicit tokens pieces) :
    (directivesOf pieces).Perm (stated (bodiesOf tokens) ++ numbered implicit (bodiesOf tokens)) := by
  induction h with
  | nil => exact .refl _
  | char c _ ih => exact ih
  | @directive implicit tokens pieces body d hd _ ih =>
    rw [bodiesOf, directivesOf]
    cases hbody : isImplicit body with
    | true =>
      have hstated : stated (body :: bodiesOf tokens) = stated (bodiesOf tokens) := by
        rw [stated, List.filter_cons_of_neg (by simp [hbody])]
        rfl
      have hnumbered : numbered implicit (body :: bodiesOf tokens) =
          d :: numbered (implicit + 1) (bodiesOf tokens) := by
        rw [numbered, List.filter_cons_of_pos hbody, List.zipIdx_cons,
          List.filterMap_cons_some (by exact congrArg Except.toOption hd)]
        rfl
      rw [nextImplicit_of_isImplicit hbody] at ih
      rw [hstated, hnumbered]
      exact (ih.cons d).trans List.perm_middle.symm
    | false =>
      have hstated : stated (body :: bodiesOf tokens) = d :: stated (bodiesOf tokens) := by
        have hzero : Directive.parse 0 body = .ok d := (parse_of_not_isImplicit hbody 0 implicit).trans hd
        rw [stated, List.filter_cons_of_pos (by simp [hbody]),
          List.filterMap_cons_some (by exact congrArg Except.toOption hzero)]
        rfl
      have hnumbered : numbered implicit (body :: bodiesOf tokens) =
          numbered implicit (bodiesOf tokens) := by
        rw [numbered, List.filter_cons_of_neg (by simp [hbody])]
        rfl
      rw [nextImplicit_of_not_isImplicit hbody] at ih
      rw [hstated, hnumbered]
      exact ih.cons d

/-- One text has the directives of the other, of which those that state no position stand in the same
order. -/
structure Rearranges (tokens tokens' : List Token) : Prop where
  stated : ((bodiesOf tokens).filter fun body => !isImplicit body).Perm
    ((bodiesOf tokens').filter fun body => !isImplicit body)
  implicit : (bodiesOf tokens).filter isImplicit = (bodiesOf tokens').filter isImplicit

namespace Rearranges

theorem symm (h : Rearranges tokens tokens') : Rearranges tokens' tokens :=
  ⟨h.stated.symm, h.implicit.symm⟩

theorem mem_bodies_iff (h : Rearranges tokens tokens') (body : List Char) :
    body ∈ bodiesOf tokens ↔ body ∈ bodiesOf tokens' := by
  have hall (bodies : List (List Char)) : body ∈ bodies ↔
      body ∈ bodies.filter (fun body => !isImplicit body) ∨ body ∈ bodies.filter isImplicit := by
    rw [List.mem_filter, List.mem_filter]
    cases isImplicit body <;> simp
  rw [hall, h.stated.mem_iff, h.implicit, ← hall]

/-- Both texts have the same directives. -/
theorem directivesOf_perm (h : Rearranges tokens tokens') (hp : Denotes implicit tokens pieces)
    (hp' : Denotes implicit tokens' pieces') : (directivesOf pieces).Perm (directivesOf pieces') := by
  have hstated : (Directive.stated (bodiesOf tokens)).Perm (Directive.stated (bodiesOf tokens')) :=
    h.stated.filterMap _
  have hnumbered : numbered implicit (bodiesOf tokens) = numbered implicit (bodiesOf tokens') := by
    rw [numbered, h.implicit]
    rfl
  have hboth := hstated.append_right (numbered implicit (bodiesOf tokens))
  exact (FormatString.directivesOf_perm hp).trans
    (hboth.trans (hnumbered ▸ (FormatString.directivesOf_perm hp').symm))

end Rearranges

/-! ## Which texts are format strings -/

theorem Denotes.unique (h : Denotes implicit tokens pieces) (h' : Denotes implicit tokens pieces') :
    pieces = pieces' := by
  induction h generalizing pieces' with
  | nil => cases h'; rfl
  | char c _ ih =>
    cases h' with
    | char _ hrest => rw [ih hrest]
  | directive hd _ ih =>
    cases h' with
    | directive hd' hrest =>
      rw [ih hrest, Except.ok.inj (hd.symm.trans hd')]

/-- A text is a format string if it is a row of tokens whose directives can be read and have
arguments. -/
theorem parse_eq_ok_iff (hs : Spells tokens text.toList) :
    parse text = .ok f ↔ ∃ pieces, Denotes 0 tokens pieces ∧ f.fragments = join [] pieces ∧
      Slots.Collects (directivesOf pieces) f.arguments := by
  have hscan (pieces : List Piece) : scan text 0 0 text.toList = (pieces, none) ↔
      Denotes 0 tokens pieces := scan_eq_none_iff text 0 0 hs
  constructor
  · intro h
    rw [parse] at h
    cases hp : scan text 0 0 text.toList with
    | mk pieces fault =>
    rw [hp] at h
    dsimp only at h
    split at h
    · cases h
    · next slots hslots =>
      split at h
      · cases h
      · split at h
        · next arguments harguments =>
          obtain rfl := Except.ok.inj h
          exact ⟨pieces, (hscan pieces).mp hp, rfl, Slots.collects_of_enterAll hslots harguments⟩
        · cases h
  · rintro ⟨pieces, hpieces, hfragments, hcollects⟩
    obtain ⟨slots, hslots, harguments⟩ := Slots.collects_iff.mpr hcollects
    obtain ⟨fragments, arguments⟩ := f
    obtain rfl : fragments = join [] pieces := hfragments
    rw [parse, (hscan pieces).mpr hpieces]
    dsimp only
    rw [hslots]
    dsimp only
    rw [harguments]

/-- A format string is a row of tokens. -/
theorem exists_spells_of_parse (h : parse text = .ok f) : ∃ tokens, Spells tokens text.toList := by
  rw [parse] at h
  cases hp : scan text 0 0 text.toList with
  | mk pieces fault =>
  rw [hp] at h
  dsimp only at h
  split at h
  · cases h
  · split at h
    · cases h
    · exact exists_spells hp

/-- A format string, with all that it comes from. -/
theorem exists_of_parse (h : parse text = .ok f) : ∃ tokens pieces, Spells tokens text.toList ∧
    Denotes 0 tokens pieces ∧ f.fragments = join [] pieces ∧ f.directives = directivesOf pieces ∧
      Slots.Collects f.directives f.arguments := by
  obtain ⟨tokens, hs⟩ := exists_spells_of_parse h
  obtain ⟨pieces, hpieces, hfragments, hcollects⟩ := (parse_eq_ok_iff hs).mp h
  have hdirectives : f.directives = directivesOf pieces := by
    obtain ⟨fragments, arguments⟩ := f
    obtain rfl : fragments = join [] pieces := hfragments
    exact directives_join [] pieces arguments
  exact ⟨tokens, pieces, hs, hpieces, hfragments, hdirectives, hdirectives ▸ hcollects⟩

/-- Which texts are refused although all of their directives can be read. -/
theorem parse_eq_error_iff (hs : Spells tokens text.toList) (hpieces : Denotes 0 tokens pieces) :
    (∃ e, parse text = .error e) ↔ ¬ ∃ arguments, Slots.Collects (directivesOf pieces) arguments := by
  constructor
  · rintro ⟨e, he⟩ ⟨arguments, harguments⟩
    have hok : parse text = .ok ⟨join [] pieces, arguments⟩ :=
      (parse_eq_ok_iff hs).mpr ⟨pieces, hpieces, rfl, harguments⟩
    rw [he] at hok
    cases hok
  · intro hnone
    cases hparse : parse text with
    | error e => exact ⟨e, rfl⟩
    | ok f =>
      obtain ⟨pieces', hpieces', -, hcollects⟩ := (parse_eq_ok_iff hs).mp hparse
      exact absurd ⟨_, hpieces.unique hpieces' ▸ hcollects⟩ hnone

/-- Rearranging the directives of a format string leaves a format string with its arguments. -/
theorem exists_parse_of_rearranges {text' : String} (hs : Spells tokens text.toList)
    (hs' : Spells tokens' text'.toList) (h : Rearranges tokens tokens') (hf : parse text = .ok f) :
    ∃ f', parse text' = .ok f' ∧ f'.arguments = f.arguments := by
  obtain ⟨pieces, hpieces, -, hcollects⟩ := (parse_eq_ok_iff hs).mp hf
  obtain ⟨pieces', hpieces'⟩ := exists_denotes 0 fun body hbody =>
    isWellFormed_of_denotes hpieces body ((h.mem_bodies_iff body).mpr hbody)
  have hcollects' := hcollects.perm (h.directivesOf_perm hpieces hpieces')
  exact ⟨⟨join [] pieces', f.arguments⟩,
    (parse_eq_ok_iff hs').mpr ⟨pieces', hpieces', rfl, hcollects'⟩, rfl⟩

/-! ## Slots -/

/-- How the slots of a format string belong to its directives, which `tokens` spell. -/
structure SlotsFit (tokens : List Token) (f : FormatString) : Prop where
  /-- The positions in use are those of the slots. -/
  positions : ∀ q, (∃ d ∈ f.directives, d.position = q) ↔ q < f.arguments.length
  /-- Directives that state a position have it. -/
  stated : List.Forall₂ (fun body d => ∀ p, (splitPosition body).1 = some p → d.position = p)
    (bodiesOf tokens) f.directives
  /-- The others have the numbers from zero on, in text order. -/
  numbered : (((bodiesOf tokens).zip f.directives).filter fun p => isImplicit p.1).map
      (fun p => p.2.position) = List.range ((bodiesOf tokens).countP isImplicit)
  /-- The slot of a directive has its type, or contains its bit range. -/
  covered : ∀ d ∈ f.directives,
    ∃ slot : ArgType, f.arguments[d.position]? = some slot ∧ slot.Covers d.type
  /-- A slot of bit ranges goes from the least low bit to the greatest high bit on its position. -/
  hulls : ∀ q hull, f.arguments[q]? = some (.bitfield hull) → ∃ ranges : List BitRange,
    Slots.typesAt q f.directives = ranges.map .bitfield ∧ hull.IsHull ranges

theorem slotsFit_of_parse (h : parse text = .ok f) :
    ∃ tokens, Spells tokens text.toList ∧ SlotsFit tokens f := by
  obtain ⟨tokens, pieces, hs, hpieces, -, hdirectives, hcollects⟩ := exists_of_parse h
  refine ⟨tokens, hs, fun q => (hcollects.used q).symm, ?_, ?_, (wellSlotted_of_parse h).covered, ?_⟩
  · rw [hdirectives]
    exact positions_of_denotes hpieces
  · rw [hdirectives, List.range_eq_range']
    exact implicit_positions hpieces
  · intro q hull hslot
    cases hcollects.merged q _ hslot with
    | same hflat => exact absurd rfl (hflat hull)
    | hull htypes hhull => exact ⟨_, htypes, hhull⟩

/-- **Slots of a format string.** If a text is read, its slots belong to its directives. If its braces
balance and each directive can be read by itself, it is refused exactly for a position that is left out or
for two directives that do not go together on one. Rearranging directives that state their positions
changes neither acceptance nor slots. -/
theorem argument_slots (text : String) :
    (∀ f, parse text = .ok f → ∃ tokens, Spells tokens text.toList ∧ SlotsFit tokens f) ∧
    (∀ tokens, Spells tokens text.toList → (∀ body ∈ bodiesOf tokens, IsWellFormed body) →
      ∃ pieces, Denotes 0 tokens pieces ∧ ((∃ e, parse text = .error e) ↔
        (∃ q < Slots.positionCount (directivesOf pieces), ∀ d ∈ directivesOf pieces, d.position ≠ q) ∨
        ∃ d ∈ directivesOf pieces, ∃ d' ∈ directivesOf pieces,
          d.position = d'.position ∧ ¬ d.type.GoesWith d'.type)) ∧
    ∀ text' tokens tokens', Spells tokens text.toList → Spells tokens' text'.toList →
      Rearranges tokens tokens' →
      (parse text).toOption.map FormatString.arguments =
        (parse text').toOption.map FormatString.arguments := by
  refine ⟨fun f hf => slotsFit_of_parse hf, fun tokens hs hbodies => ?_,
    fun text' tokens tokens' hs hs' h => ?_⟩
  · obtain ⟨pieces, hpieces⟩ := exists_denotes 0 hbodies
    refine ⟨pieces, hpieces, ?_⟩
    rw [parse_eq_error_iff hs hpieces, Slots.exists_collects_iff, not_and_or]
    push Not
    rfl
  · cases hf : parse text with
    | ok f =>
      obtain ⟨f', hf', harguments⟩ := exists_parse_of_rearranges hs hs' h hf
      rw [hf']
      exact congrArg some harguments.symm
    | error e =>
      cases hf' : parse text' with
      | error e' => rfl
      | ok f' =>
        obtain ⟨f, hsome, -⟩ := exists_parse_of_rearranges hs' hs h.symm hf'
        rw [hf] at hsome
        cases hsome

/-- Directives of all sorts between braces of literal text. -/
def sampleTokens : List Token :=
  [.directive "=u8".toList, .char '{', .directive "2=u16[8..=11]:x".toList, .directive [], .char '}',
    .directive "2=u16[0..=3]".toList]

/-- What these tokens are read as. -/
def sampleFormat : FormatString where
  fragments :=
    [.directive ⟨0, .integer .u8, none⟩, .literal "\x7b",
      .directive ⟨2, .bitfield ⟨.w16, 8, 11, by decide, by decide⟩, some ⟨.lowerHex, false, false, 0⟩⟩,
      .directive ⟨1, .format, none⟩, .literal "\x7d",
      .directive ⟨2, .bitfield ⟨.w16, 0, 3, by decide, by decide⟩, none⟩]
  arguments := [.integer .u8, .format, .bitfield ⟨.w16, 0, 11, by decide, by decide⟩]

/-- The same directives in another order. -/
def rearrangedTokens : List Token :=
  [.directive "2=u16[0..=3]".toList, .directive "=u8".toList, .directive [],
    .directive "2=u16[8..=11]:x".toList]

/-- Directives that leave a position out. -/
def gapTokens : List Token := [.directive "0=u8".toList, .directive "2=u8".toList]

/-- The text of tokens. -/
def textOf (tokens : List Token) : String := String.ofList (tokens.flatMap Token.written)

theorem spells_textOf (h : ∀ body ∈ bodiesOf tokens, '{' ∉ body ∧ '}' ∉ body) :
    Spells tokens (textOf tokens).toList := ⟨String.toList_ofList, h⟩

theorem parse_sampleTokens : parse (textOf sampleTokens) = .ok sampleFormat := by cbv

theorem argument_slots_sample :
    (∃ tokens, Spells tokens (textOf sampleTokens).toList ∧ SlotsFit tokens sampleFormat) ∧
    (∃ pieces, Denotes 0 gapTokens pieces ∧ ((∃ e, parse (textOf gapTokens) = .error e) ↔
        (∃ q < Slots.positionCount (directivesOf pieces), ∀ d ∈ directivesOf pieces, d.position ≠ q) ∨
        ∃ d ∈ directivesOf pieces, ∃ d' ∈ directivesOf pieces,
          d.position = d'.position ∧ ¬ d.type.GoesWith d'.type)) ∧
    (parse (textOf sampleTokens)).toOption.map FormatString.arguments =
      (parse (textOf rearrangedTokens)).toOption.map FormatString.arguments := by
  have hgap : ∀ body ∈ bodiesOf gapTokens, IsWellFormed body := by
    intro body hbody
    rcases List.mem_pair.mp hbody with rfl | rfl
    · exact ⟨⟨0, .integer .u8, none⟩, by cbv⟩
    · exact ⟨⟨2, .integer .u8, none⟩, by cbv⟩
  have hrearranges : Rearranges sampleTokens rearrangedTokens := ⟨by decide, by decide⟩
  have hslots := argument_slots (textOf sampleTokens)
  exact ⟨hslots.1 _ parse_sampleTokens,
    (argument_slots (textOf gapTokens)).2.1 gapTokens (spells_textOf (by decide)) hgap,
    hslots.2.2 _ _ _ (spells_textOf (by decide)) (spells_textOf (by decide)) hrearranges⟩

end FormatString

end DeferredLog
