import DeferredLog.Proofs.FormatString.Bodies
import DeferredLog.Proofs.FormatString.Numbering

/-!
# The grammar of format strings

`IsFormatText reads ds text` says which texts are format strings with the directives `ds`, without a scanner
or a reader: the text is a row of tokens, its bodies denote the directives one after the other, no position
is left out, and the types on one position go together. `reads` says which body denotes which directive. The
grammar is that of `Directive.IsBodyText`; what is accepted is that of `Directive.IsLooseBodyText`, where a
body may have a line feed at its end:

    (∃ f, parse text = .ok f ∧ f.directives = ds) ↔ IsFormatText IsLooseBodyText ds text
                                                                                (exists_parse_iff)
    texts of the grammar are accepted, and so are no others unless a body ends in a line feed
                                                                                   (parse_accepts)
-/

namespace DeferredLog

/-- A body denotes a directive if a line feed at its end does not count. -/
def Directive.IsLooseBodyText (implicit : Nat) (d : Directive) (next : Nat) (body : List Char) : Prop :=
  Text.Loosely (IsBodyText implicit d next) body

namespace FormatString

open Directive

/-! ## Texts of the grammar -/

/-- Bodies denote directives, one after the other. -/
inductive Lists (reads : Nat → Directive → Nat → List Char → Prop) :
    Nat → List (List Char) → List Directive → Prop
  | nil (implicit : Nat) : Lists reads implicit [] []
  | cons {implicit next : Nat} {d : Directive} {ds : List Directive} {body : List Char}
      {bodies : List (List Char)} : reads implicit d next body → Lists reads next bodies ds →
      Lists reads implicit (body :: bodies) (d :: ds)

/-- Directives make one slot for each position. -/
structure SharesSlots (ds : List Directive) : Prop where
  /-- The positions in use are those below some number. -/
  gapless : ∃ n, ∀ q, q < n ↔ ∃ d ∈ ds, d.position = q
  /-- Directives on one position have one type, or bit ranges of one backing integer. -/
  goesWith : ∀ d ∈ ds, ∀ d' ∈ ds, d.position = d'.position → d.type.GoesWith d'.type

/-- A text is a format string with these directives. -/
def IsFormatText (reads : Nat → Directive → Nat → List Char → Prop) (ds : List Directive)
    (text : String) : Prop :=
  ∃ tokens, Spells tokens text.toList ∧ Lists reads 0 (bodiesOf tokens) ds ∧ SharesSlots ds

variable {reads reads' : Nat → Directive → Nat → List Char → Prop} {tokens : List Token}
  {pieces : List Piece} {implicit : Nat} {ds : List Directive} {bodies : List (List Char)} {text : String}

theorem Lists.imp (h : Lists reads implicit bodies ds)
    (himp : ∀ implicit d next, ∀ body ∈ bodies, reads implicit d next body → reads' implicit d next body) :
    Lists reads' implicit bodies ds := by
  induction h with
  | nil implicit => exact .nil implicit
  | cons hbody _ ih =>
    refine .cons (himp _ _ _ _ List.mem_cons_self hbody) (ih fun implicit d next body hmem => ?_)
    exact himp implicit d next body (List.mem_cons_of_mem _ hmem)

/-- Texts of the grammar are among the accepted ones. -/
theorem IsFormatText.loose (h : IsFormatText IsBodyText ds text) : IsFormatText IsLooseBodyText ds text := by
  obtain ⟨tokens, hs, hlists, hslots⟩ := h
  exact ⟨tokens, hs, hlists.imp fun _ _ _ _ _ hbody => .of hbody, hslots⟩

/-- If no body ends in a line feed, the accepted texts are those of the grammar. -/
theorem IsFormatText.strict (h : IsFormatText IsLooseBodyText ds text) (hs : Spells tokens text.toList)
    (hend : ∀ body ∈ bodiesOf tokens, body.getLast? ≠ some '\n') : IsFormatText IsBodyText ds text := by
  obtain ⟨tokens', hs', hlists, hslots⟩ := h
  obtain rfl := hs.unique hs'
  exact ⟨tokens, hs, hlists.imp fun _ _ _ body hmem hbody => hbody.strict (hend body hmem), hslots⟩

/-! ## What is accepted -/

theorem sharesSlots_iff : SharesSlots ds ↔ ∃ arguments, Slots.Collects ds arguments := by
  rw [Slots.exists_collects_iff]
  constructor
  · rintro ⟨⟨n, hused⟩, htypes⟩
    exact ⟨fun q hq => (hused q).mp (Slots.positionCount_of_used hused ▸ hq), htypes⟩
  · rintro ⟨hused, htypes⟩
    exact ⟨⟨_, Slots.used_of_positionCount hused⟩, htypes⟩

/-- What tokens denote is what their bodies denote. -/
theorem lists_of_denotes (h : Denotes implicit tokens pieces) :
    Lists IsLooseBodyText implicit (bodiesOf tokens) (directivesOf pieces) := by
  induction h with
  | nil implicit => exact .nil implicit
  | char c _ ih => exact ih
  | directive hd _ ih => exact .cons (Directive.parse_eq_ok_iff.mp ⟨hd, rfl⟩) ih

theorem exists_denotes_of_lists (h : Lists IsLooseBodyText implicit (bodiesOf tokens) ds) :
    ∃ pieces, Denotes implicit tokens pieces ∧ directivesOf pieces = ds := by
  induction tokens generalizing implicit ds with
  | nil =>
    cases h
    exact ⟨[], .nil implicit, rfl⟩
  | cons token tokens ih =>
    cases token with
    | char c =>
      obtain ⟨pieces, hpieces, hds⟩ := ih h
      exact ⟨_, .char c hpieces, hds⟩
    | directive body =>
      cases h with
      | cons hbody hrest =>
        obtain ⟨hd, rfl⟩ := Directive.parse_eq_ok_iff.mpr hbody
        obtain ⟨pieces, hpieces, rfl⟩ := ih hrest
        exact ⟨_, .directive hd hpieces, rfl⟩

/-- The accepted texts, with their directives. -/
theorem exists_parse_iff (ds : List Directive) (text : String) :
    (∃ f, parse text = .ok f ∧ f.directives = ds) ↔ IsFormatText IsLooseBodyText ds text := by
  constructor
  · rintro ⟨f, hf, rfl⟩
    obtain ⟨tokens, pieces, hs, hpieces, -, hdirectives, hcollects⟩ := exists_of_parse hf
    rw [hdirectives] at hcollects ⊢
    exact ⟨tokens, hs, lists_of_denotes hpieces, sharesSlots_iff.mpr ⟨_, hcollects⟩⟩
  · rintro ⟨tokens, hs, hlists, hslots⟩
    obtain ⟨pieces, hpieces, rfl⟩ := exists_denotes_of_lists hlists
    obtain ⟨arguments, harguments⟩ := sharesSlots_iff.mp hslots
    refine ⟨⟨join [] pieces, arguments⟩, ?_, directives_join [] pieces arguments⟩
    exact (parse_eq_ok_iff hs).mpr ⟨pieces, hpieces, rfl, harguments⟩

/-- A text is accepted exactly if it is one of the grammar, where a body may have a line feed at its end,
and gives its directives; any other text gives an error. So all texts of the grammar are accepted, and no
others if no body ends in a line feed. -/
theorem parse_accepts (text : String) :
    (∀ ds, (∃ f, parse text = .ok f ∧ f.directives = ds) ↔ IsFormatText IsLooseBodyText ds text) ∧
    ((∃ e, parse text = .error e) ↔ ∀ ds, ¬ IsFormatText IsLooseBodyText ds text) ∧
    (∀ ds, IsFormatText IsBodyText ds text → ∃ f, parse text = .ok f ∧ f.directives = ds) ∧
    ∀ tokens, Spells tokens text.toList → (∀ body ∈ bodiesOf tokens, body.getLast? ≠ some '\n') →
      ∀ ds, (∃ f, parse text = .ok f ∧ f.directives = ds) ↔ IsFormatText IsBodyText ds text := by
  refine ⟨fun ds => exists_parse_iff ds text, ?_, fun ds h => (exists_parse_iff ds text).mpr h.loose,
    fun tokens hs hend ds => ?_⟩
  · constructor
    · rintro ⟨e, he⟩ ds hds
      obtain ⟨f, hf, -⟩ := (exists_parse_iff ds text).mpr hds
      rw [hf] at he
      cases he
    · intro hnone
      cases hf : parse text with
      | error e => exact ⟨e, rfl⟩
      | ok f => exact absurd ((exists_parse_iff _ text).mp ⟨f, hf, rfl⟩) (hnone _)
  · rw [exists_parse_iff]
    exact ⟨fun h => h.strict hs hend, fun h => h.loose⟩

theorem parse_accepts_sample : IsFormatText IsBodyText sampleFormat.directives (textOf sampleTokens) :=
  ((parse_accepts (textOf sampleTokens)).2.2.2 sampleTokens (spells_textOf (by decide)) (by decide)
    sampleFormat.directives).mp ⟨sampleFormat, parse_sampleTokens, rfl⟩

/-- A hint with a line feed behind it is accepted, and is not of the grammar. -/
theorem parse_fedHint :
    (∃ f, parse "\x7b:x\n\x7d" = .ok f ∧
      f.directives = [⟨0, .format, some ⟨.lowerHex, false, false, 0⟩⟩]) ∧
    ∀ ds, ¬ IsFormatText IsBodyText ds "\x7b:x\n\x7d" := by
  refine ⟨⟨⟨[.directive ⟨0, .format, some ⟨.lowerHex, false, false, 0⟩⟩], [.format]⟩, by cbv, rfl⟩, ?_⟩
  rintro ds ⟨tokens, hs, hlists, -⟩
  have hs' : Spells [.directive [':', 'x', '\n']] "\x7b:x\n\x7d".toList := ⟨by decide, by decide⟩
  obtain rfl := hs.unique hs'
  cases hlists with
  | cons hbody _ => exact absurd (hbody.mem_of_mem_lineFeed (by decide)) (by decide)

end FormatString

end DeferredLog
