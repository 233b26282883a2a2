import DeferredLog.Proofs.FormatString.Printing
import Mathlib.Data.List.Chain

/-!
# Printing and parsing

Parsing joins the characters between two directives, so it yields fragments with no empty literal and
no two literals in a row. Such fragments are what is read from their own text, with the arguments that
their directives make. So a format string is read from its printed text whatever text it was read from;
that it was written with positions left out does not show.

    IsNormal fragments → join [] (fragments.flatMap Fragment.pieces) = fragments         (join_pieces)
    parse text = .ok f → parse (print f.fragments) = .ok f                      (parse_print_of_parse)
    parsing undoes printing, and numbering is a matter of spelling                     (print_parse)
-/

namespace DeferredLog

/-! ## Stated positions -/

namespace Directive

variable {implicit implicit' : Nat} {body body' : List Char} {d : Directive}

/-- How a directive comes by its position does not matter. -/
theorem parse_eq_ok_of_split (hrest : (splitPosition body).2 = (splitPosition body').2)
    (hposition : (splitPosition body).1.getD implicit = (splitPosition body').1.getD implicit')
    (h : parse implicit body = .ok d) : parse implicit' body' = .ok d := by
  rw [parse] at h ⊢
  generalize splitPosition body = split at h hrest hposition
  generalize splitPosition body' = split' at hrest hposition ⊢
  obtain ⟨position, rest⟩ := split
  obtain ⟨position', rest'⟩ := split'
  obtain rfl : rest = rest' := hrest
  dsimp only at h hposition ⊢
  rw [← hposition]
  split at h
  · cases h
  · exact h

/-- A body with its position stated. -/
def withPosition (implicit : Nat) (body : List Char) : List Char :=
  if isImplicit body then Nat.toDigits 10 implicit ++ body else body

theorem splitPosition_withPosition (implicit : Nat) (body : List Char) :
    splitPosition (withPosition implicit body) =
      (some ((splitPosition body).1.getD implicit), (splitPosition body).2) := by
  rw [withPosition]
  cases hbody : isImplicit body with
  | true =>
    have hnone : Text.takeNumeral? body = none := by
      rw [isImplicit, splitPosition] at hbody
      split at hbody
      · cases hbody
      · assumption
    -- the number does not run into digits of the body
    have hfirst := Text.not_isDigit_head hnone
    rw [if_pos rfl, splitPosition, Text.takeNumeral?_toDigits_append implicit hfirst, splitPosition, hnone]
    dsimp only
    rw [Text.digitsValue_toDigits]
    rfl
  | false =>
    obtain ⟨position, hposition⟩ := Option.isSome_iff_exists.mp (Option.isNone_eq_false_iff.mp hbody)
    rw [if_neg Bool.false_ne_true, hposition]
    exact Prod.ext hposition rfl

theorem isImplicit_withPosition (implicit : Nat) (body : List Char) :
    isImplicit (withPosition implicit body) = false := by
  rw [isImplicit, splitPosition_withPosition]
  rfl

theorem not_mem_withPosition {c : Char} (hc : c = '{' ∨ c = '}') (h : c ∉ body) :
    c ∉ withPosition implicit body := by
  rw [withPosition]
  split
  · rw [List.mem_append, not_or]
    refine ⟨fun hmem => ?_, h⟩
    have hdigit := Text.isDigit_of_mem_toDigits hmem
    rcases hc with rfl | rfl <;> exact absurd hdigit (by decide)
  · exact h

end Directive

/-! ## Normal forms -/

/-- Whether a fragment is literal text. -/
def Fragment.isLiteral : Fragment → Bool
  | .literal _ => true
  | .directive _ => false

namespace FormatString

open Directive

/-- Literal text is not empty and is not cut. -/
structure IsNormal (fragments : List Fragment) : Prop where
  nonempty : .literal "" ∉ fragments
  uncut : fragments.IsChain fun first second => ¬ (first.isLiteral = true ∧ second.isLiteral = true)

variable {tokens tokens' : List Token} {pieces : List Piece} {fragments : List Fragment}
  {implicit implicit' : Nat} {text text' : String} {f g : FormatString}

theorem literalRun_reverse {text : String} (h : text ≠ "") :
    literalRun text.toList.reverse = [.literal text] := by
  obtain ⟨c, cs, hcs⟩ := List.exists_cons_of_ne_nil (l := text.toList.reverse) (by simpa using h)
  rw [hcs, literalRun, ← hcs, List.reverse_reverse, String.ofList_toList]

theorem join_chars (run cs : List Char) (pieces : List Piece) :
    join run (cs.map .char ++ pieces) = join (cs.reverse ++ run) pieces := by
  induction cs generalizing run with
  | nil => rfl
  | cons c cs ih =>
    rw [List.map_cons, List.cons_append, join, ih, List.reverse_cons, List.append_assoc,
      List.singleton_append]

/-- A run ends where no literal text follows. -/
theorem join_run (run : List Char) (h : ∀ first, fragments.head? = some first → first.isLiteral = false) :
    join run (fragments.flatMap Fragment.pieces) =
      literalRun run ++ join [] (fragments.flatMap Fragment.pieces) := by
  cases fragments with
  | nil => exact (List.append_nil _).symm
  | cons first fragments =>
    cases first with
    | literal text => cases h _ rfl
    | directive d => rfl

/-- Fragments in normal form are joined as they were. -/
theorem join_pieces (h : IsNormal fragments) : join [] (fragments.flatMap Fragment.pieces) = fragments := by
  obtain ⟨hnonempty, huncut⟩ := h
  induction fragments with
  | nil => rfl
  | cons first fragments ih =>
    rw [List.mem_cons, not_or] at hnonempty
    rw [List.isChain_cons] at huncut
    have hrest := ih hnonempty.2 huncut.2
    rw [List.flatMap_cons]
    cases first with
    | literal text =>
      have hend : ∀ second, fragments.head? = some second → second.isLiteral = false :=
        fun second hsecond => Bool.eq_false_iff.mpr fun h => huncut.1 second hsecond ⟨rfl, h⟩
      have htext : text ≠ "" := fun h => hnonempty.1 (congrArg Fragment.literal h).symm
      rw [Fragment.pieces, join_chars, List.append_nil, join_run _ hend, literalRun_reverse htext, hrest]
      rfl
    | directive d => exact congrArg (Fragment.directive d :: ·) hrest

/-- What pieces are joined to is in normal form. -/
theorem isNormal_join (run : List Char) (pieces : List Piece) : IsNormal (join run pieces) := by
  have hrun : ∀ run, literalRun run = [] ∨ ∃ text, text ≠ "" ∧ literalRun run = [.literal text] := by
    intro run
    cases run with
    | nil => exact .inl rfl
    | cons c cs => exact .inr ⟨String.ofList (c :: cs).reverse, by simp, rfl⟩
  induction pieces generalizing run with
  | nil =>
    rw [join]
    rcases hrun run with h | ⟨text, htext, h⟩
    · rw [h]
      exact ⟨List.not_mem_nil, .nil⟩
    · rw [h]
      exact ⟨by simpa using htext.symm, .singleton _⟩
  | cons piece pieces ih =>
    cases piece with
    | char c => exact ih (c :: run)
    | directive d =>
      obtain ⟨hnonempty, huncut⟩ := ih []
      have hdirective : IsNormal (.directive d :: join [] pieces) :=
        ⟨by simpa using hnonempty, List.isChain_cons.mpr ⟨fun _ _ h => Bool.false_ne_true h.1, huncut⟩⟩
      rw [join]
      rcases hrun run with h | ⟨text, htext, h⟩
      · rw [h]
        exact hdirective
      · rw [h]
        refine ⟨?_, List.isChain_cons.mpr ⟨fun second hsecond h => ?_, hdirective.uncut⟩⟩
        · rw [List.singleton_append, List.mem_cons, not_or]
          exact ⟨fun h => htext (Fragment.literal.inj h).symm, hdirective.nonempty⟩
        · cases hsecond
          cases h.2

/-! ## Printed texts -/

/-- Fragments in normal form are read from their text, with the arguments that their directives make. -/
theorem parse_print (h : IsNormal f.fragments) (harguments : Slots.Collects f.directives f.arguments) :
    parse (print f.fragments) = .ok f := by
  have hjoin := join_pieces h
  have hdirectives := directives_join [] (f.fragments.flatMap Fragment.pieces) f.arguments
  rw [hjoin] at hdirectives
  rw [parse_eq_ok_iff (spells_print f.fragments)]
  exact ⟨_, denotes_print 0 f.fragments, hjoin.symm, hdirectives ▸ harguments⟩

theorem parse_print_of_parse (h : parse text = .ok f) : parse (print f.fragments) = .ok f := by
  obtain ⟨tokens, pieces, -, -, hfragments, -, hcollects⟩ := exists_of_parse h
  exact parse_print (hfragments ▸ isNormal_join [] pieces) hcollects

/-- Fragments that a text can be printed for which is read as them: `count` is the number of their
arguments. -/
structure Printable (fragments : List Fragment) (count : Nat) : Prop where
  normal : IsNormal fragments
  /-- The positions in use are those below the number. -/
  positions : ∀ q, (∃ d, .directive d ∈ fragments ∧ d.position = q) ↔ q < count
  /-- The types on one position go together. -/
  types : ∀ d d', .directive d ∈ fragments → .directive d' ∈ fragments → d.position = d'.position →
    d.type.GoesWith d'.type

/-- What is read from any text can be printed. -/
theorem printable_of_parse (h : parse text = .ok f) : Printable f.fragments f.arguments.length := by
  obtain ⟨tokens, pieces, -, -, hfragments, -, hcollects⟩ := exists_of_parse h
  refine ⟨hfragments ▸ isNormal_join [] pieces, fun q => ?_, fun d d' hd hd' hposition => ?_⟩
  · rw [hcollects.used]
    simp only [mem_directives_iff]
  · rw [← mem_directives_iff] at hd hd'
    obtain ⟨slot, -, hslot⟩ := hcollects.exists_slot hd
    exact hslot.goesWith (Slots.mem_typesAt_iff.mpr ⟨d, hd, rfl, rfl⟩)
      (Slots.mem_typesAt_iff.mpr ⟨d', hd', hposition.symm, rfl⟩)

/-- What can be printed is read from its text. -/
theorem Printable.exists_parse {count : Nat} (h : Printable fragments count) :
    ∃ f, parse (print fragments) = .ok f ∧ f.fragments = fragments ∧ f.arguments.length = count ∧
      ∀ q (slot : ArgType), f.arguments[q]? = some slot → slot.IsMergeOf (Slots.typesAt q f.directives) := by
  have hmem := fun d => mem_directives_iff (f := ⟨fragments, []⟩) (d := d)
  have hused : ∀ q, q < count ↔ ∃ d ∈ directives ⟨fragments, []⟩, d.position = q := by
    intro q
    rw [← h.positions]
    simp only [hmem]
  have hcount : Slots.positionCount (directives ⟨fragments, []⟩) = count := Slots.positionCount_of_used hused
  obtain ⟨arguments, harguments⟩ := Slots.exists_collects_iff.mpr
    ⟨fun q hq => (hused q).mp (hcount ▸ hq),
      fun d hd d' hd' => h.types d d' ((hmem d).mp hd) ((hmem d').mp hd')⟩
  refine ⟨⟨fragments, arguments⟩, parse_print (f := ⟨fragments, arguments⟩) h.normal harguments, rfl, ?_,
    harguments.merged⟩
  exact (Slots.positionCount_of_used harguments.used).symm.trans hcount

/-! ## Positions left out -/

/-- The same directives between the same characters, with the same positions whether these are stated or
counted. -/
inductive Renumbers : Nat → Nat → List Token → List Token → Prop
  | nil (implicit implicit' : Nat) : Renumbers implicit implicit' [] []
  | char {implicit implicit' : Nat} {tokens tokens' : List Token} (c : Char) :
      Renumbers implicit implicit' tokens tokens' →
      Renumbers implicit implicit' (.char c :: tokens) (.char c :: tokens')
  | directive {implicit implicit' : Nat} {tokens tokens' : List Token} {body body' : List Char} :
      (splitPosition body).2 = (splitPosition body').2 →
      (splitPosition body).1.getD implicit = (splitPosition body').1.getD implicit' →
      Renumbers (nextImplicit implicit body) (nextImplicit implicit' body') tokens tokens' →
      Renumbers implicit implicit' (.directive body :: tokens) (.directive body' :: tokens')

theorem Renumbers.symm (h : Renumbers implicit implicit' tokens tokens') :
    Renumbers implicit' implicit tokens' tokens := by
  induction h with
  | nil => exact .nil ..
  | char c _ ih => exact .char c ih
  | directive hrest hposition _ ih => exact .directive hrest.symm hposition.symm ih

/-- Numbering does not change what tokens denote. -/
theorem Renumbers.denotes (h : Renumbers implicit implicit' tokens tokens')
    (hpieces : Denotes implicit tokens pieces) : Denotes implicit' tokens' pieces := by
  induction h generalizing pieces with
  | nil =>
    cases hpieces
    exact .nil _
  | char c _ ih =>
    cases hpieces with
    | char _ hpieces => exact .char c (ih hpieces)
  | directive hrest hposition _ ih =>
    cases hpieces with
    | directive hd hpieces => exact .directive (parse_eq_ok_of_split hrest hposition hd) (ih hpieces)

/-- Nor does it change what a text is read as. -/
theorem Renumbers.parse_eq_ok_iff (h : Renumbers 0 0 tokens tokens') (hs : Spells tokens text.toList)
    (hs' : Spells tokens' text'.toList) : parse text = .ok f ↔ parse text' = .ok f := by
  rw [FormatString.parse_eq_ok_iff hs, FormatString.parse_eq_ok_iff hs']
  exact exists_congr fun pieces => and_congr_left fun _ => ⟨h.denotes, h.symm.denotes⟩

/-- Tokens with all positions stated. -/
def withPositions : Nat → List Token → List Token
  | _, [] => []
  | implicit, .char c :: tokens => .char c :: withPositions implicit tokens
  | implicit, .directive body :: tokens =>
    .directive (withPosition implicit body) :: withPositions (nextImplicit implicit body) tokens

theorem renumbers_withPositions (implicit implicit' : Nat) (tokens : List Token) :
    Renumbers implicit implicit' tokens (withPositions implicit tokens) := by
  induction tokens generalizing implicit with
  | nil => exact .nil ..
  | cons token tokens ih =>
    cases token with
    | char c => exact .char c (ih implicit)
    | directive body =>
      have hsplit := splitPosition_withPosition implicit body
      refine .directive (by rw [hsplit]) (by rw [hsplit]; rfl) ?_
      rw [nextImplicit_of_not_isImplicit (isImplicit_withPosition implicit body)]
      exact ih _

theorem mem_bodiesOf_withPositions {body : List Char}
    (h : body ∈ bodiesOf (withPositions implicit tokens)) :
    ∃ position, ∃ body' ∈ bodiesOf tokens, body = withPosition position body' := by
  induction tokens generalizing implicit with
  | nil => cases h
  | cons token tokens ih =>
    cases token with
    | char c => exact ih h
    | directive other =>
      rcases List.mem_cons.mp h with rfl | h
      · exact ⟨implicit, other, List.mem_cons_self, rfl⟩
      · obtain ⟨position, body', hbody', hbody⟩ := ih h
        exact ⟨position, body', List.mem_cons_of_mem _ hbody', hbody⟩

/-- Every text has a spelling in which all positions are stated. -/
theorem Spells.exists_stated (h : Spells tokens text.toList) :
    ∃ tokens', (∀ body ∈ bodiesOf tokens', isImplicit body = false) ∧
      Spells tokens' (textOf tokens').toList ∧ Renumbers 0 0 tokens tokens' := by
  refine ⟨withPositions 0 tokens, fun body hbody => ?_, spells_textOf fun body hbody => ?_,
    renumbers_withPositions 0 0 tokens⟩
  · obtain ⟨position, body', -, rfl⟩ := mem_bodiesOf_withPositions hbody
    exact isImplicit_withPosition position body'
  · obtain ⟨position, body', hbody', rfl⟩ := mem_bodiesOf_withPositions hbody
    obtain ⟨hopen, hclose⟩ := h.bodies body' hbody'
    exact ⟨not_mem_withPosition (.inl rfl) hopen, not_mem_withPosition (.inr rfl) hclose⟩

/-! ## Both ways -/

/-- **Parsing undoes printing.** Fragments with no empty and no cut literals, whose positions are those
below a number and whose types on one position go together, are read from their text, with one argument
for each position that its types make. So what is read from any text is read again from its own, and no
two format strings have one text. A position may be stated or counted: the directives are the same, and
every text has a spelling in which all are stated. -/
theorem print_parse :
    (∀ fragments count, Printable fragments count →
      ∃ f, parse (print fragments) = .ok f ∧ f.fragments = fragments ∧ f.arguments.length = count ∧
        ∀ q (slot : ArgType), f.arguments[q]? = some slot →
          slot.IsMergeOf (Slots.typesAt q f.directives)) ∧
    (∀ text f, parse text = .ok f → parse (print f.fragments) = .ok f) ∧
    (∀ text text' f g, parse text = .ok f → parse text' = .ok g →
      print f.fragments = print g.fragments → f = g) ∧
    (∀ text text' tokens tokens' f, Spells tokens text.toList → Spells tokens' text'.toList →
      Renumbers 0 0 tokens tokens' → (parse text = .ok f ↔ parse text' = .ok f)) ∧
    ∀ (text : String) (tokens : List Token), Spells tokens text.toList →
      ∃ tokens', (∀ body ∈ bodiesOf tokens', isImplicit body = false) ∧
        Spells tokens' (textOf tokens').toList ∧ Renumbers 0 0 tokens tokens' := by
  refine ⟨fun _ _ h => h.exists_parse, fun _ _ h => parse_print_of_parse h, ?_,
    fun _ _ _ _ _ hs hs' h => h.parse_eq_ok_iff hs hs', fun _ _ hs => hs.exists_stated⟩
  intro text text' f g hf hg hprint
  have hf' := parse_print_of_parse hf
  rw [hprint, parse_print_of_parse hg] at hf'
  exact (Except.ok.inj hf').symm

theorem print_parse_sample :
    Printable sampleFormat.fragments 3 ∧
    (∃ f, parse (print sampleFormat.fragments) = .ok f ∧ f.fragments = sampleFormat.fragments ∧
      f.arguments.length = 3) ∧
    parse (print sampleFormat.fragments) = .ok sampleFormat ∧
    parse (textOf (withPositions 0 sampleTokens)) = .ok sampleFormat := by
  have hprintable : Printable sampleFormat.fragments 3 := printable_of_parse parse_sampleTokens
  obtain ⟨hfragments, hagain, -, hnumbering, -⟩ := print_parse
  obtain ⟨f, hf, hf', hcount, -⟩ := hfragments _ _ hprintable
  refine ⟨hprintable, ⟨f, hf, hf', hcount⟩, hagain _ _ parse_sampleTokens, ?_⟩
  rw [← hnumbering _ _ _ _ _ (spells_textOf (by decide)) (spells_textOf (by decide))
    (renumbers_withPositions 0 0 sampleTokens)]
  exact parse_sampleTokens

end FormatString

end DeferredLog
