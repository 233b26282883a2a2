import DeferredLog.FormatString.Parser
import DeferredLog.Proofs.FormatString.Hints
import DeferredLog.Proofs.FormatString.Tags
import Mathlib.Data.List.TakeWhile

/-!
# Bodies of directives

`IsBodyText implicit d next body` says which bodies denote a directive, without a reader: a position, a type
behind `=` and a hint behind `:`, each of which may be left out. `implicit` is the position that a directive
takes if it states none, and `next` the one that is left for the next of them. Reading accepts these bodies,
and the same bodies with one line feed at their ends:

    parse implicit body = .ok d ∧ nextImplicit implicit body = next ↔
      Loosely (IsBodyText implicit d next) body                                    (parse_eq_ok_iff)
-/

namespace DeferredLog.Directive

open Text

/-! ## Bodies -/

/-- What stands for a position, and the position that is left for the next directive without one. -/
inductive StatesPosition (implicit : Nat) : Nat → Nat → List Char → Prop
  | absent : StatesPosition implicit implicit (implicit + 1) []
  | stated {ds : List Char} : isNumeral ds = true → StatesPosition implicit (digitsValue ds) implicit ds

/-- What stands for a type. -/
inductive StatesType : ArgType → List Char → Prop
  | absent : StatesType .format []
  | stated {type : ArgType} {text : List Char} : type.IsTypeText text → StatesType type ('=' :: text)

/-- What stands for a hint. -/
inductive StatesHint : Option Hint → List Char → Prop
  | absent : StatesHint none []
  | stated {hint : Hint} {text : List Char} : hint.IsHintText text → StatesHint (some hint) (':' :: text)

/-- A type and a hint, one after the other. -/
def IsTypeHintText (type : ArgType) (hint : Option Hint) (cs : List Char) : Prop :=
  ∃ typePart hintPart, StatesType type typePart ∧ StatesHint hint hintPart ∧ cs = typePart ++ hintPart

/-- A body denotes a directive. -/
def IsBodyText (implicit : Nat) (d : Directive) (next : Nat) (body : List Char) : Prop :=
  ∃ digits rest, StatesPosition implicit d.position next digits ∧ IsTypeHintText d.type d.hint rest ∧
    body = digits ++ rest

variable {implicit next : Nat} {d : Directive} {body rest cs text : List Char} {type : ArgType}
  {hint : Option Hint} {typeText? hintText? : Option (List Char)}

/-- What follows the position does not go on with a digit. -/
theorem IsTypeHintText.not_isDigit_head (h : IsTypeHintText type hint rest)
    (hcs : cs = rest ∨ cs = rest ++ ['\n']) : ∀ c, cs.head? = some c → isDigit c = false := by
  obtain ⟨tail, rfl, htail⟩ : ∃ tail, cs = rest ++ tail ∧ (tail = [] ∨ tail = ['\n']) := by
    rcases hcs with rfl | rfl
    · exact ⟨[], by simp, .inl rfl⟩
    · exact ⟨['\n'], rfl, .inr rfl⟩
  obtain ⟨typePart, hintPart, htype, hhint, rfl⟩ := h
  intro c hc
  cases htype with
  | stated => cases hc; decide
  | absent =>
    cases hhint with
    | stated => cases hc; decide
    | absent => rcases htail with rfl | rfl <;> cases hc; decide

/-- Only a type can hold a line feed. -/
theorem IsBodyText.mem_of_mem_lineFeed (h : IsBodyText implicit d next body) (hfeed : '\n' ∈ body) :
    '=' ∈ body := by
  obtain ⟨position, type, hint⟩ := d
  obtain ⟨digits, rest, hposition, ⟨typePart, hintPart, htype, hhint, rfl⟩, rfl⟩ := h
  dsimp only at hposition htype hhint
  cases htype with
  | stated => simp
  | absent =>
    exfalso
    rcases List.mem_append.mp hfeed with hmem | hmem
    · cases hposition with
      | absent => cases hmem
      | stated hds => exact absurd ((isNumeral_iff.mp hds).2 _ hmem) (by decide)
    · cases hhint with
      | absent => cases hmem
      | stated htext =>
        rcases List.mem_cons.mp hmem with heq | hmem
        · exact absurd heq (by decide)
        · exact htext.not_mem (.inl rfl) hmem

/-- Bodies hold no braces. -/
theorem IsBodyText.not_mem (h : IsBodyText implicit d next body) {c : Char} (hc : c = '{' ∨ c = '}') :
    c ∉ body := by
  obtain ⟨position, type, hint⟩ := d
  obtain ⟨digits, rest, hposition, ⟨typePart, hintPart, htype, hhint, rfl⟩, rfl⟩ := h
  dsimp only at hposition htype hhint
  have hdigits : c ∉ digits := by
    cases hposition with
    | absent => exact List.not_mem_nil
    | stated hds =>
      intro hmem
      have hdigit := (isNumeral_iff.mp hds).2 c hmem
      rcases hc with rfl | rfl <;> exact absurd hdigit (by decide)
  have hmarks : c ≠ '=' ∧ c ≠ ':' := by rcases hc with rfl | rfl <;> decide
  have htypePart : c ∉ typePart := by
    cases htype with
    | absent => exact List.not_mem_nil
    | stated htext => exact List.not_mem_cons_of_ne_of_not_mem hmarks.1 (htext.not_mem (.inr hc))
  have hhintPart : c ∉ hintPart := by
    cases hhint with
    | absent => exact List.not_mem_nil
    | stated htext => exact List.not_mem_cons_of_ne_of_not_mem hmarks.2 (htext.not_mem (.inr hc))
  rw [List.mem_append, List.mem_append]
  exact not_or.mpr ⟨hdigits, not_or.mpr ⟨htypePart, hhintPart⟩⟩

/-! ## The position -/

/-- What the position is split off as. -/
theorem exists_of_splitPosition (implicit : Nat) (body : List Char) :
    ∃ digits, StatesPosition implicit ((splitPosition body).1.getD implicit) (nextImplicit implicit body)
      digits ∧ body = digits ++ (splitPosition body).2 := by
  rw [nextImplicit, splitPosition]
  split
  · next ds rest hsplit =>
    obtain ⟨rfl, hds, -⟩ := takeNumeral?_eq_some_iff.mp hsplit
    exact ⟨ds, .stated hds, rfl⟩
  · exact ⟨[], .absent, rfl⟩

/-- A position is split off where it is stated, if no digit follows. -/
theorem exists_splitPosition {position : Nat} {digits : List Char}
    (h : StatesPosition implicit position next digits)
    (hrest : ∀ c, rest.head? = some c → isDigit c = false) :
    ∃ position?, splitPosition (digits ++ rest) = (position?, rest) ∧ position?.getD implicit = position ∧
      nextImplicit implicit (digits ++ rest) = next := by
  cases h with
  | absent =>
    have hsplit : splitPosition ([] ++ rest) = (none, rest) := by
      rw [List.nil_append, splitPosition, takeNumeral?_eq_none hrest]
    exact ⟨none, hsplit, rfl, by rw [nextImplicit, hsplit]; rfl⟩
  | stated hds =>
    have hsplit : splitPosition (digits ++ rest) = (some (digitsValue digits), rest) := by
      rw [splitPosition, takeNumeral?_eq_some_iff.mpr ⟨rfl, hds, hrest⟩]
    exact ⟨_, hsplit, rfl, by rw [nextImplicit, hsplit]; rfl⟩

/-! ## The type and the hint -/

theorem splitTypeHint?_type (hcolon : ':' ∉ cs) : splitTypeHint? ('=' :: cs) = some (some cs, none) := by
  have hdrop : cs.dropWhile (fun c => decide (c ≠ ':')) = [] := by
    rw [List.dropWhile_eq_nil_iff]
    intro c hc
    rw [decide_eq_true_eq]
    rintro rfl
    exact hcolon hc
  rw [splitTypeHint?, hdrop]

section
variable (hfeed : '\n' ∉ text) (hcs : cs = text ∨ cs = text ++ ['\n'])

include hfeed hcs

theorem splitTypeHint?_hint : splitTypeHint? (':' :: cs) = some (none, some text) := by
  have hcontains : text.contains '\n' = false := by simpa using hfeed
  rw [splitTypeHint?, (Hint.dropFinalLineFeed_eq_iff hfeed).mpr hcs, hcontains]
  rfl

theorem splitTypeHint?_type_hint {typeText : List Char} (hcolon : ':' ∉ typeText) :
    splitTypeHint? ('=' :: (typeText ++ ':' :: cs)) = some (some typeText, some text) := by
  have hcontains : text.contains '\n' = false := by simpa using hfeed
  have hname : ∀ c ∈ typeText, decide (c ≠ ':') = true := by
    intro c hc
    rw [decide_eq_true_eq]
    rintro rfl
    exact hcolon hc
  rw [splitTypeHint?, List.dropWhile_append_of_pos hname, List.takeWhile_append_of_pos hname]
  have htake : (':' :: cs).takeWhile (fun c => decide (c ≠ ':')) = [] := rfl
  have hdrop : (':' :: cs).dropWhile (fun c => decide (c ≠ ':')) = ':' :: cs := rfl
  rw [hdrop, htake, List.append_nil]
  dsimp only
  rw [(Hint.dropFinalLineFeed_eq_iff hfeed).mpr hcs, hcontains]
  rfl

end

/-- A type and a hint are found where they are stated, also before a line feed. -/
theorem exists_splitTypeHint? (h : IsTypeHintText type hint rest) (hcs : cs = rest ∨ cs = rest ++ ['\n']) :
    ∃ typeText? hintText?, splitTypeHint? cs = some (typeText?, hintText?) ∧
      statedType typeText? = .ok type ∧ statedHint hintText? = .ok hint := by
  obtain ⟨typePart, hintPart, htype, hhint, rfl⟩ := h
  have hread {hint : Hint} {text : List Char} (htext : hint.IsHintText text) :
      statedHint (some text) = .ok (some hint) := by
    rw [statedHint, Hint.parse_eq_ok_iff.mpr (.of htext)]
  cases htype with
  | absent =>
    cases hhint with
    | absent =>
      refine ⟨none, none, ?_, rfl, rfl⟩
      rcases hcs with rfl | rfl <;> rfl
    | @stated hint text htext =>
      refine ⟨none, some text, ?_, rfl, hread htext⟩
      rcases hcs with rfl | rfl
      · exact splitTypeHint?_hint (htext.not_mem (.inl rfl)) (.inl rfl)
      · exact splitTypeHint?_hint (htext.not_mem (.inl rfl)) (.inr rfl)
  | @stated _ typeText htypeText =>
    cases hhint with
    | absent =>
      -- the line feed counts as a blank behind the type
      obtain ⟨typeText', rfl, hblank⟩ : ∃ typeText', cs = '=' :: typeText' ∧ type.IsTypeText typeText' := by
        rcases hcs with rfl | rfl
        · exact ⟨typeText, by simp, htypeText⟩
        · exact ⟨typeText ++ ['\n'], by simp, htypeText.append_blank (by decide)⟩
      exact ⟨_, none, splitTypeHint?_type (hblank.not_mem (.inl rfl)), ArgType.parse_eq_ok_iff.mpr hblank, rfl⟩
    | @stated hint text htext =>
      refine ⟨some typeText, some text, ?_, ArgType.parse_eq_ok_iff.mpr htypeText, hread htext⟩
      have hsplit {cs : List Char} (hcs : cs = text ∨ cs = text ++ ['\n']) :=
        splitTypeHint?_type_hint (htext.not_mem (.inl rfl)) hcs (htypeText.not_mem (.inl rfl))
      rcases hcs with rfl | rfl
      · exact hsplit (.inl rfl)
      · rw [List.append_assoc]
        exact hsplit (.inr rfl)

/-- What is read as a type and a hint denotes them. -/
theorem loosely_of_splitTypeHint? (hsplit : splitTypeHint? cs = some (typeText?, hintText?))
    (htype : statedType typeText? = .ok type) (hhint : statedHint hintText? = .ok hint) :
    Loosely (IsTypeHintText type hint) cs := by
  have hnoType (h : typeText? = none) : StatesType type [] := by
    subst h
    obtain rfl := Except.ok.inj htype
    exact .absent
  have hsomeType {text : List Char} (h : typeText? = some text) : StatesType type ('=' :: text) := by
    subst h
    exact .stated (ArgType.parse_eq_ok_iff.mp htype)
  have hnoHint (h : hintText? = none) : StatesHint hint [] := by
    subst h
    obtain rfl := Except.ok.inj hhint
    exact .absent
  have hsomeHint {tail : List Char} (h : some (Hint.dropFinalLineFeed tail) = hintText?)
      (hfeed : ¬ (Hint.dropFinalLineFeed tail).contains '\n' = true) :
      Loosely (StatesHint hint) (':' :: tail) := by
    rw [List.contains_iff_mem] at hfeed
    rw [← h, statedHint] at hhint
    split at hhint
    · next hparse =>
      obtain rfl := Except.ok.inj hhint
      have htext := (Hint.parse_eq_ok_iff.mp hparse).strict fun hlast => hfeed (List.mem_of_getLast? hlast)
      have htail : Loosely (Hint.IsHintText _) tail := ⟨_, htext, (Hint.dropFinalLineFeed_eq_iff hfeed).mp rfl⟩
      exact htail.append_left [':'] fun _ => .stated
    · cases hhint
  unfold splitTypeHint? at hsplit
  split at hsplit
  · obtain ⟨ht, hh⟩ := Prod.mk.inj (Option.some.inj hsplit)
    exact .of ⟨[], [], hnoType ht.symm, hnoHint hh.symm, rfl⟩
  · next text =>
    split at hsplit
    · obtain ⟨ht, hh⟩ := Prod.mk.inj (Option.some.inj hsplit)
      exact .of ⟨_, [], hsomeType ht.symm, hnoHint hh.symm, (List.append_nil _).symm⟩
    · next c tail hdrop =>
      have hcolon : c = ':' := by
        have hstop := List.head?_dropWhile_not (fun c => decide (c ≠ ':')) text
        rw [hdrop] at hstop
        simpa using hstop
      subst hcolon
      split at hsplit
      · cases hsplit
      · next hfeed =>
        obtain ⟨ht, hh⟩ := Prod.mk.inj (Option.some.inj hsplit)
        rw [← List.takeWhile_append_dropWhile (p := fun c => decide (c ≠ ':')) (l := text), hdrop]
        exact (hsomeHint hh hfeed).append_left ('=' :: _) fun front hfront =>
          ⟨_, front, hsomeType ht.symm, hfront, rfl⟩
  · next tail =>
    split at hsplit
    · cases hsplit
    · next hfeed =>
      obtain ⟨ht, hh⟩ := Prod.mk.inj (Option.some.inj hsplit)
      exact (hsomeHint hh hfeed).append_left [] fun front hfront => ⟨[], front, hnoType ht.symm, hfront, rfl⟩
  · split at hsplit
    · next hfeed =>
      obtain ⟨ht, hh⟩ := Prod.mk.inj (Option.some.inj hsplit)
      exact ⟨[], ⟨[], [], hnoType ht.symm, hnoHint hh.symm, rfl⟩, .inr hfeed⟩
    · cases hsplit

/-! ## Bodies -/

/-- The bodies that can be read are those that denote directives, with a line feed at their ends or
without. -/
theorem parse_eq_ok_iff : parse implicit body = .ok d ∧ nextImplicit implicit body = next ↔
    Loosely (IsBodyText implicit d next) body := by
  constructor
  · rintro ⟨h, rfl⟩
    obtain ⟨digits, hposition, hbody⟩ := exists_of_splitPosition implicit body
    rw [parse] at h
    generalize splitPosition body = split at h hposition hbody
    obtain ⟨position?, rest⟩ := split
    dsimp only at h hposition hbody
    split at h
    · cases h
    · next typeText? hintText? hsplit =>
      split at h
      · cases h
      · next type htype =>
        split at h
        · cases h
        · next hint hhint =>
          obtain rfl := Except.ok.inj h
          have hrest := loosely_of_splitTypeHint? hsplit htype hhint
          generalize nextImplicit implicit body = next at hposition ⊢
          rw [hbody]
          exact hrest.append_left digits fun front hfront => ⟨digits, front, hposition, hfront, rfl⟩
  · rintro ⟨_, ⟨digits, rest, hposition, htypeHint, rfl⟩, hend⟩
    obtain ⟨cs, hcs, rfl⟩ : ∃ cs, (cs = rest ∨ cs = rest ++ ['\n']) ∧ body = digits ++ cs := by
      rcases hend with rfl | rfl
      · exact ⟨rest, .inl rfl, rfl⟩
      · exact ⟨rest ++ ['\n'], .inr rfl, List.append_assoc ..⟩
    obtain ⟨position?, hsplit, hget, hnext⟩ := exists_splitPosition hposition (htypeHint.not_isDigit_head hcs)
    obtain ⟨typeText?, hintText?, hparts, htype, hhint⟩ := exists_splitTypeHint? htypeHint hcs
    refine ⟨?_, hnext⟩
    rw [parse, hsplit]
    dsimp only
    rw [hparts]
    dsimp only
    rw [htype]
    dsimp only
    rw [hhint, hget]

end DeferredLog.Directive
