import DeferredLog.Proofs.FormatString.Bodies
import DeferredLog.Proofs.FormatString.Numbering

/-!
# Format strings written out

Literal text is written with its braces doubled. A directive is written with its position, its type and
its hint, whatever of these it could do without. What is written is read back piece by piece:

    Hint.parse h.written = .ok h                                                  (Hint.parse_written)
    Directive.parse implicit d.body = .ok d                                      (Directive.parse_body)
    Spells (fragments.flatMap Fragment.tokens) (print fragments).toList               (spells_print)
    Denotes implicit (fragments.flatMap Fragment.tokens) (fragments.flatMap Fragment.pieces)
                                                                                     (denotes_print)
    the directives `ds` go together and leave no position out →
      parse of their text is a format string with the directives `ds`      (exists_parse_directives)
-/

namespace DeferredLog

open Text

/-! ## Hints -/

namespace Hint

/-- The text of a hint. -/
def written (h : Hint) : List Char :=
  (if h.alternate then ['#'] else []) ++ ((if h.zeroPad then ['0'] else []) ++
    ((if h.width = 0 then [] else Nat.toDigits 10 h.width) ++ h.kind.symbol.toList))

/-- Numbers other than zero are written without a zero in front. -/
theorem head_toDigits {n : Nat} (hn : n ≠ 0) :
    ∃ (c : Char) (cs : List Char), Nat.toDigits 10 n = c :: cs ∧ '1' ≤ c ∧ c ≤ '9' := by
  induction n using Nat.strongRecOn with
  | ind n ih =>
    rw [Nat.toDigits_eq_if (by decide)]
    by_cases hlt : n < 10
    · rw [if_pos hlt]
      have hall : ∀ d < 10, d ≠ 0 → '1' ≤ d.digitChar ∧ d.digitChar ≤ '9' := by decide
      exact ⟨n.digitChar, [], rfl, hall n hlt hn⟩
    · rw [if_neg hlt]
      obtain ⟨c, cs, hcs, hc⟩ := ih (n / 10) (by omega) (by omega)
      exact ⟨c, cs ++ [(n % 10).digitChar], by rw [hcs]; rfl, hc⟩

theorem isWidth_toDigits (width : Nat) :
    IsWidth width (if width = 0 then [] else Nat.toDigits 10 width) := by
  by_cases hw : width = 0
  · rw [if_pos hw, hw]
    exact .absent
  · rw [if_neg hw]
    obtain ⟨c, cs, hcs, hc⟩ := head_toDigits hw
    have hdigits : ∀ d ∈ cs, isDigit d = true := fun d hd =>
      isDigit_of_mem_toDigits (hcs ▸ List.mem_cons_of_mem c hd)
    have hwidth := IsWidth.digits hc hdigits
    rwa [← hcs, digitsValue_toDigits] at hwidth

theorem isHintText_written (h : Hint) : IsHintText h h.written :=
  ⟨_, _, isWidth_toDigits h.width, .symbol h.kind, rfl⟩

/-- A hint is read back. -/
theorem parse_written (h : Hint) : parse h.written = .ok h :=
  parse_eq_ok_iff.mpr (.of h.isHintText_written)

end Hint

/-! ## Directives -/

namespace Directive

/-- The text of the hint in a directive. -/
def hintWritten : Option Hint → List Char
  | none => []
  | some h => ':' :: h.written

/-- The body of a directive. -/
def body (d : Directive) : List Char :=
  Nat.toDigits 10 d.position ++ '=' :: (d.type.name.toList ++ hintWritten d.hint)

/-- The text of a directive. -/
def written (d : Directive) : List Char := '{' :: (d.body ++ ['}'])

theorem isBodyText_body (d : Directive) (implicit : Nat) : IsBodyText implicit d implicit d.body := by
  have hposition : StatesPosition implicit d.position implicit (Nat.toDigits 10 d.position) := by
    have hstated : StatesPosition implicit _ implicit _ := .stated (isNumeral_toDigits d.position)
    rwa [digitsValue_toDigits] at hstated
  have hhint : StatesHint d.hint (hintWritten d.hint) := by
    cases d.hint with
    | none => exact .absent
    | some h => exact .stated h.isHintText_written
  exact ⟨_, _, hposition, ⟨_, _, .stated (ArgType.parse_eq_ok_iff.mp d.type.parse_name), hhint, rfl⟩, rfl⟩

/-- A directive is read back, whatever position it would take without one of its own, and it takes no
other. -/
theorem parse_body (d : Directive) (implicit : Nat) :
    parse implicit d.body = .ok d ∧ nextImplicit implicit d.body = implicit :=
  parse_eq_ok_iff.mpr (.of (d.isBodyText_body implicit))

theorem not_mem_body (d : Directive) {c : Char} (hc : c = '{' ∨ c = '}') : c ∉ d.body :=
  (d.isBodyText_body 0).not_mem hc

end Directive

/-! ## Texts of fragments -/

/-- The text of a fragment. -/
def Fragment.written : Fragment → List Char
  | .literal text => text.toList.flatMap FormatString.charWritten
  | .directive d => d.written

namespace FormatString

/-- The text of fragments. -/
def print (fragments : List Fragment) : String := String.ofList (fragments.flatMap Fragment.written)

end FormatString

namespace Fragment

open FormatString

/-- The tokens of a fragment. -/
def tokens : Fragment → List Token
  | .literal text => text.toList.map .char
  | .directive d => [.directive d.body]

/-- What a scan finds of a fragment. -/
def pieces : Fragment → List Piece
  | .literal text => text.toList.map .char
  | .directive d => [.directive d]

theorem written_eq (fragment : Fragment) : fragment.written = fragment.tokens.flatMap Token.written := by
  cases fragment with
  | literal text =>
    rw [tokens, List.flatMap_map]
    rfl
  | directive d => exact (List.append_nil _).symm

end Fragment

namespace FormatString

variable {tokens : List Token} {pieces : List Piece} {implicit : Nat}

theorem bodiesOf_chars (cs : List Char) (tokens : List Token) :
    bodiesOf (cs.map .char ++ tokens) = bodiesOf tokens := by
  induction cs with
  | nil => rfl
  | cons c cs ih => exact ih

theorem Denotes.chars (cs : List Char) (h : Denotes implicit tokens pieces) :
    Denotes implicit (cs.map .char ++ tokens) (cs.map .char ++ pieces) := by
  induction cs with
  | nil => exact h
  | cons c cs ih => exact .char c ih

/-- The text of fragments is the row of their tokens. -/
theorem spells_print (fragments : List Fragment) :
    Spells (fragments.flatMap Fragment.tokens) (print fragments).toList := by
  constructor
  · rw [print, String.toList_ofList, List.flatMap_assoc]
    exact List.flatMap_congr fun fragment _ => fragment.written_eq
  · induction fragments with
    | nil => exact fun body hbody => absurd hbody List.not_mem_nil
    | cons fragment fragments ih =>
      rw [List.flatMap_cons]
      cases fragment with
      | literal text => rwa [Fragment.tokens, bodiesOf_chars]
      | directive d =>
        exact List.forall_mem_cons.mpr ⟨⟨d.not_mem_body (.inl rfl), d.not_mem_body (.inr rfl)⟩, ih⟩

/-- Their tokens are read as what they were written for. -/
theorem denotes_print (implicit : Nat) (fragments : List Fragment) :
    Denotes implicit (fragments.flatMap Fragment.tokens) (fragments.flatMap Fragment.pieces) := by
  induction fragments with
  | nil => exact .nil implicit
  | cons fragment fragments ih =>
    rw [List.flatMap_cons, List.flatMap_cons]
    cases fragment with
    | literal text => exact ih.chars text.toList
    | directive d =>
      obtain ⟨hparse, hnext⟩ := d.parse_body implicit
      refine .directive hparse ?_
      rwa [hnext]

/-! ## Texts of directives -/

theorem print_directives (ds : List Directive) :
    print (ds.map .directive) = String.ofList (ds.flatMap Directive.written) :=
  congrArg String.ofList (List.flatMap_map ..)

theorem pieces_directives (ds : List Directive) :
    (ds.map Fragment.directive).flatMap Fragment.pieces = ds.map .directive := by
  rw [List.flatMap_map, List.map_eq_flatMap]
  rfl

theorem directivesOf_map (ds : List Directive) : directivesOf (ds.map .directive) = ds := by
  induction ds with
  | nil => rfl
  | cons d ds ih => rw [List.map_cons, directivesOf, ih]

theorem join_directives (ds : List Directive) :
    join [] (ds.map .directive) = ds.map Fragment.directive := by
  induction ds with
  | nil => rfl
  | cons d ds ih =>
    rw [List.map_cons, join, ih]
    rfl

/-- A text of directives whose slots are in wire order has these directives and slots. -/
theorem parse_directives {ds : List Directive} {slots : Slots} {arguments : List ArgType}
    (hslots : Slots.enterAll [] ds = .ok slots) (harguments : slots.arguments = .ok arguments) :
    parse (String.ofList (ds.flatMap Directive.written)) = .ok ⟨ds.map .directive, arguments⟩ := by
  have hpieces := denotes_print 0 (ds.map .directive)
  rw [pieces_directives] at hpieces
  rw [← print_directives, parse_eq_ok_iff (spells_print _)]
  refine ⟨_, hpieces, (join_directives ds).symm, ?_⟩
  rw [directivesOf_map]
  exact Slots.collects_of_enterAll hslots harguments

/-- A text of directives that go together and leave no position out is read. -/
theorem exists_parse_directives {ds : List Directive} {slots : Slots}
    (hslots : Slots.enterAll [] ds = .ok slots) (hgapless : Slots.Gapless ds) :
    ∃ f, parse (String.ofList (ds.flatMap Directive.written)) = .ok f ∧ f.directives = ds := by
  obtain ⟨arguments, harguments⟩ := Slots.exists_arguments hslots hgapless
  refine ⟨_, parse_directives hslots harguments, ?_⟩
  rw [← join_directives, directives_join, directivesOf_map]

end FormatString

end DeferredLog
