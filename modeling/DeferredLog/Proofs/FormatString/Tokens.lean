import DeferredLog.Proofs.FormatString.Slots

/-!
# The tokens of a format text

A format text whose braces balance is a row of tokens: characters, of which braces are written twice,
and directives, whose bodies hold no braces. `Spells` says so without a scanner. The scanner finds no
fault in a text exactly if it is such a row and every body can be read:

    Spells tokens cs → (scan whole offset implicit cs = (pieces, none) ↔ Denotes implicit tokens pieces)
                                                                                   (scan_eq_none_iff)
    scan whole offset implicit cs = (pieces, none) → ∃ tokens, Spells tokens cs       (exists_spells)
-/

namespace DeferredLog

namespace FormatString

/-! ## Texts from tokens -/

/-- What a format text is made of. -/
inductive Token where
  /-- A character of literal text. -/
  | char (c : Char)
  /-- What stands between the braces of a directive. -/
  | directive (body : List Char)
  deriving DecidableEq

/-- Whether a character has a meaning of its own. -/
def isBrace (c : Char) : Bool := c = '{' || c = '}'

/-- A literal character as it is written: braces are doubled. -/
def charWritten (c : Char) : List Char := if isBrace c then [c, c] else [c]

/-- The text of a token. -/
def Token.written : Token → List Char
  | .char c => charWritten c
  | .directive body => '{' :: (body ++ ['}'])

/-- The bodies of the directives, in text order. -/
def bodiesOf : List Token → List (List Char)
  | [] => []
  | .char _ :: tokens => bodiesOf tokens
  | .directive body :: tokens => body :: bodiesOf tokens

/-- A text is the row of these tokens, so its braces balance. -/
structure Spells (tokens : List Token) (cs : List Char) : Prop where
  eq : cs = tokens.flatMap Token.written
  bodies : ∀ body ∈ bodiesOf tokens, '{' ∉ body ∧ '}' ∉ body

/-- The pieces that tokens denote if all of their directives can be read; `implicit` is the position of
the first directive that states none. -/
inductive Denotes : Nat → List Token → List Piece → Prop
  | nil (implicit : Nat) : Denotes implicit [] []
  | char {implicit : Nat} {tokens : List Token} {pieces : List Piece} (c : Char) :
      Denotes implicit tokens pieces → Denotes implicit (.char c :: tokens) (.char c :: pieces)
  | directive {implicit : Nat} {tokens : List Token} {pieces : List Piece} {body : List Char}
      {d : Directive} : Directive.parse implicit body = .ok d →
      Denotes (Directive.nextImplicit implicit body) tokens pieces →
      Denotes implicit (.directive body :: tokens) (.directive d :: pieces)

variable {tokens : List Token} {pieces : List Piece} {cs body rest : List Char} {c : Char}

theorem Spells.nil : Spells [] [] := ⟨rfl, by simp [bodiesOf]⟩

theorem Spells.char (h : Spells tokens cs) (c : Char) :
    Spells (.char c :: tokens) (charWritten c ++ cs) :=
  ⟨by rw [h.eq]; rfl, h.bodies⟩

theorem Spells.directive (h : Spells tokens cs) (hbody : '{' ∉ body ∧ '}' ∉ body) :
    Spells (.directive body :: tokens) ('{' :: (body ++ '}' :: cs)) := by
  refine ⟨?_, fun other hother => ?_⟩
  · rw [List.flatMap_cons, ← h.eq, Token.written, List.cons_append, List.append_assoc,
      List.singleton_append]
  · rcases List.mem_cons.mp hother with rfl | hother
    · exact hbody
    · exact h.bodies other hother

/-! ## Bodies between braces -/

/-- A body without braces ends at the first closing brace. -/
theorem splitBody?_append (hopen : '{' ∉ body) (hclose : '}' ∉ body) :
    splitBody? (body ++ '}' :: rest) = some (body, rest) := by
  induction body with
  | nil => rfl
  | cons c body ih =>
    rw [List.mem_cons, not_or] at hopen hclose
    have htail := ih hopen.2 hclose.2
    rw [List.cons_append, splitBody?, if_neg (Ne.symm hopen.1), htail]
    exact fun h => hclose.1 h.symm

/-- What is split off as a body holds no braces. -/
theorem of_splitBody? (h : splitBody? cs = some (body, rest)) :
    cs = body ++ '}' :: rest ∧ '{' ∉ body ∧ '}' ∉ body := by
  fun_induction splitBody? cs generalizing body with
  | case1 => cases h
  | case2 rest' =>
    obtain ⟨rfl, rfl⟩ := Prod.mk.inj (Option.some.inj h)
    exact ⟨rfl, List.not_mem_nil, List.not_mem_nil⟩
  | case3 => cases h
  | case4 c cs hclose hopen body' tail heq ih =>
    obtain ⟨rfl, rfl⟩ := Prod.mk.inj (Option.some.inj h)
    obtain ⟨rfl, hopen', hclose'⟩ := ih heq
    exact ⟨rfl, List.not_mem_cons_of_ne_of_not_mem (Ne.symm hopen) hopen',
      List.not_mem_cons_of_ne_of_not_mem (fun h => hclose h.symm) hclose'⟩
  | case5 => cases h

theorem head?_charWritten (c : Char) (rest : List Char) : (charWritten c ++ rest).head? = some c := by
  rw [charWritten]
  split <;> rfl

/-- A token is told from what follows. -/
theorem Token.written_append_inj {token token' : Token} {rest rest' : List Char}
    (hbody : ∀ body, token = .directive body → '{' ∉ body ∧ '}' ∉ body)
    (hbody' : ∀ body, token' = .directive body → '{' ∉ body ∧ '}' ∉ body)
    (h : token.written ++ rest = token'.written ++ rest') : token = token' ∧ rest = rest' := by
  -- two opening braces are no directive, whose body does not start with one
  have hchar {c : Char} {body rest rest' : List Char} (hbody : '{' ∉ body ∧ '}' ∉ body) :
      charWritten c ++ rest ≠ '{' :: (body ++ ['}']) ++ rest' := by
    intro h
    by_cases hc : isBrace c = true
    · rw [charWritten, if_pos hc] at h
      obtain ⟨rfl, h⟩ := List.cons.inj h
      cases body with
      | nil => exact absurd (List.cons.inj h).1 (by decide)
      | cons b body => exact hbody.1 ((List.cons.inj h).1 ▸ List.mem_cons_self)
    · rw [charWritten, if_neg hc] at h
      obtain ⟨rfl, -⟩ := List.cons.inj h
      exact hc (by decide)
  cases token with
  | char c =>
    cases token' with
    | char c' =>
      rw [written, written] at h
      have hfirst := congrArg List.head? h
      rw [head?_charWritten, head?_charWritten] at hfirst
      obtain rfl := Option.some.inj hfirst
      exact ⟨rfl, List.append_cancel_left h⟩
    | directive body => exact absurd h (hchar (hbody' body rfl))
  | directive body =>
    cases token' with
    | char c => exact absurd h.symm (hchar (hbody body rfl))
    | directive body' =>
      have hsplit : splitBody? (body ++ '}' :: rest) = some (body, rest) :=
        splitBody?_append (hbody body rfl).1 (hbody body rfl).2
      have hsplit' : splitBody? (body' ++ '}' :: rest') = some (body', rest') :=
        splitBody?_append (hbody' body' rfl).1 (hbody' body' rfl).2
      have heq : body ++ '}' :: rest = body' ++ '}' :: rest' := by
        simpa [written] using h
      rw [heq, hsplit'] at hsplit
      obtain ⟨rfl, rfl⟩ := Prod.mk.inj (Option.some.inj hsplit)
      exact ⟨rfl, rfl⟩

/-- A text is a row of tokens in one way at most. -/
theorem Spells.unique {tokens' : List Token} (h : Spells tokens cs) (h' : Spells tokens' cs) :
    tokens = tokens' := by
  have hne (token : Token) (rest : List Char) : token.written ++ rest ≠ [] := by
    cases token with
    | char c => rw [Token.written, charWritten]; split <;> simp
    | directive body => simp [Token.written]
  have hhead {token : Token} {tokens : List Token}
      (h : ∀ body ∈ bodiesOf (token :: tokens), '{' ∉ body ∧ '}' ∉ body) :
      ∀ body, token = .directive body → '{' ∉ body ∧ '}' ∉ body := by
    rintro body rfl
    exact h body List.mem_cons_self
  have htail {token : Token} {tokens : List Token}
      (h : ∀ body ∈ bodiesOf (token :: tokens), '{' ∉ body ∧ '}' ∉ body) :
      ∀ body ∈ bodiesOf tokens, '{' ∉ body ∧ '}' ∉ body := by
    cases token with
    | char c => exact h
    | directive body => exact fun other hother => h other (List.mem_cons_of_mem _ hother)
  obtain ⟨rfl, hbodies⟩ := h
  obtain ⟨heq, hbodies'⟩ := h'
  induction tokens generalizing tokens' with
  | nil =>
    cases tokens' with
    | nil => rfl
    | cons token' tokens' => exact absurd heq.symm (hne token' _)
  | cons token tokens ih =>
    cases tokens' with
    | nil => exact absurd heq (hne token _)
    | cons token' tokens' =>
      obtain ⟨rfl, hrest⟩ := Token.written_append_inj (hhead hbodies) (hhead hbodies') heq
      rw [ih (htail hbodies) hrest (htail hbodies')]

/-! ## Scanning tokens -/

section
variable (whole : String) (offset implicit : Nat)

theorem scan_charWritten (c : Char) (rest : List Char) :
    ∃ next, scan whole offset implicit (charWritten c ++ rest) =
      (.char c :: (scan whole next implicit rest).1, (scan whole next implicit rest).2) := by
  rw [charWritten]
  by_cases hc : isBrace c = true
  · rw [if_pos hc]
    refine ⟨offset + 2, ?_⟩
    rw [isBrace, Bool.or_eq_true, decide_eq_true_eq, decide_eq_true_eq] at hc
    rcases hc with rfl | rfl
    · exact scan.eq_3 ..
    · exact scan.eq_2 ..
  · rw [if_neg hc]
    refine ⟨offset + 1, ?_⟩
    rw [isBrace, Bool.or_eq_true, decide_eq_true_eq, decide_eq_true_eq, not_or] at hc
    rw [List.singleton_append, scan, if_neg hc.2, if_neg hc.1]
    · rintro rest' rfl
      exact absurd rfl hc.2
    · rintro rest' rfl
      exact absurd rfl hc.1

theorem scan_directive (hbody : '{' ∉ body ∧ '}' ∉ body) (rest : List Char) :
    scan whole offset implicit ('{' :: (body ++ '}' :: rest)) =
      match Directive.parse implicit body with
      | .error e => ([], some e)
      | .ok d =>
        let (pieces, fault) :=
          scan whole (offset + body.length + 2) (Directive.nextImplicit implicit body) rest
        (.directive d :: pieces, fault) := by
  have hsplit : splitBody? (body ++ '}' :: rest) = some (body, rest) :=
    splitBody?_append hbody.1 hbody.2
  rw [scan]
  · rw [if_neg (by decide), if_pos rfl]
    split
    · next hnone =>
      rw [hsplit] at hnone
      cases hnone
    · next body' tail hsome =>
      rw [hsplit] at hsome
      obtain ⟨rfl, rfl⟩ := Prod.mk.inj (Option.some.inj hsome)
      rfl
  · intro rest' h
    exact absurd h (by decide)
  · intro rest' _ h
    -- two opening braces are no directive, and the body does not start with one
    cases body with
    | nil => exact absurd (List.cons.inj h).1 (by decide)
    | cons c body => exact hbody.1 ((List.cons.inj h).1 ▸ List.mem_cons_self)

end

/-- Along the tokens of a text the scanner finds no fault exactly if it can read all directives. -/
theorem scan_eq_none_iff (whole : String) (offset implicit : Nat) (h : Spells tokens cs) :
    scan whole offset implicit cs = (pieces, none) ↔ Denotes implicit tokens pieces := by
  obtain ⟨rfl, hbodies⟩ := h
  induction tokens generalizing offset implicit pieces with
  | nil =>
    rw [List.flatMap_nil, scan]
    constructor
    · intro h
      obtain ⟨rfl, -⟩ := Prod.mk.inj h
      exact .nil implicit
    · rintro ⟨⟩
      rfl
  | cons token tokens ih =>
    cases token with
    | char c =>
      obtain ⟨next, hscan⟩ := scan_charWritten whole offset implicit c (tokens.flatMap Token.written)
      have hrest (ps : List Piece) : scan whole next implicit (tokens.flatMap Token.written) = (ps, none) ↔
          Denotes implicit tokens ps := ih next implicit hbodies
      rw [List.flatMap_cons, Token.written, hscan]
      constructor
      · intro h
        obtain ⟨rfl, hfault⟩ := Prod.mk.inj h
        exact .char c ((hrest _).mp (Prod.ext rfl hfault))
      · rintro ⟨⟩
        next ps hps => rw [(hrest ps).mpr hps]
    | directive body =>
      have hrest (ps : List Piece) : scan whole (offset + body.length + 2)
          (Directive.nextImplicit implicit body) (tokens.flatMap Token.written) = (ps, none) ↔
          Denotes (Directive.nextImplicit implicit body) tokens ps :=
        ih _ _ fun other hother => hbodies other (List.mem_cons_of_mem _ hother)
      rw [List.flatMap_cons, Token.written, List.cons_append, List.append_assoc,
        List.singleton_append, scan_directive whole offset implicit (hbodies body List.mem_cons_self)]
      constructor
      · intro h
        split at h
        · cases h
        · next d hd =>
          obtain ⟨rfl, hfault⟩ := Prod.mk.inj h
          exact .directive hd ((hrest _).mp (Prod.ext rfl hfault))
      · rintro ⟨⟩
        next ps d hd hps =>
        rw [hd]
        dsimp only
        rw [(hrest ps).mpr hps]

/-- A text in which the scanner finds no fault is a row of tokens. -/
theorem exists_spells {whole : String} {offset implicit : Nat}
    (h : scan whole offset implicit cs = (pieces, none)) : ∃ tokens, Spells tokens cs := by
  fun_induction scan whole offset implicit cs generalizing pieces with
  | case1 => exact ⟨[], .nil⟩
  | case2 offset implicit rest pieces' fault heq ih =>
    obtain ⟨-, rfl⟩ := Prod.mk.inj h
    obtain ⟨tokens, htokens⟩ := ih heq
    exact ⟨_, htokens.char '}'⟩
  | case3 offset implicit rest pieces' fault heq ih =>
    obtain ⟨-, rfl⟩ := Prod.mk.inj h
    obtain ⟨tokens, htokens⟩ := ih heq
    exact ⟨_, htokens.char '{'⟩
  | case4 => cases h
  | case5 => cases h
  | case6 => cases h
  | case7 offset implicit rest body tail hsplit d hd pieces' fault heq _ _ _ ih =>
    obtain ⟨-, rfl⟩ := Prod.mk.inj h
    obtain ⟨tokens, htokens⟩ := ih heq
    obtain ⟨rfl, hbody⟩ := of_splitBody? hsplit
    exact ⟨_, htokens.directive hbody⟩
  | case8 offset implicit c rest _ _ hclose hopen pieces' fault heq ih =>
    obtain ⟨-, rfl⟩ := Prod.mk.inj h
    obtain ⟨tokens, htokens⟩ := ih heq
    have hc : charWritten c = [c] := if_neg (by simp [isBrace, hopen, hclose])
    exact ⟨_, hc ▸ htokens.char c⟩

end FormatString

end DeferredLog
