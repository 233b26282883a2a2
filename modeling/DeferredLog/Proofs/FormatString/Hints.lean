import DeferredLog.Proofs.Text.Numeral

/-!
# Texts of hints

`IsHintText hint text` says which texts denote a hint, without a reader: flags, a width and a symbol, one
after the other. A width is a number without a zero in front; its further digits may be those of any script.
Reading accepts these texts, and the same texts with one line feed at their ends:

    parse text = .ok hint ↔ Loosely (IsHintText hint) text                           (parse_eq_ok_iff)
-/

namespace DeferredLog

open Text

/-! ## A line feed at the end -/

/-- A text is one of these, or one of these with a line feed at its end. -/
def Text.Loosely (texts : List Char → Prop) (cs : List Char) : Prop :=
  ∃ front, texts front ∧ (cs = front ∨ cs = front ++ ['\n'])

section
variable {texts : List Char → Prop} {cs front : List Char}

theorem Text.Loosely.of (h : texts cs) : Loosely texts cs := ⟨cs, h, .inl rfl⟩

/-- What stands in front of a text does not matter to its end. -/
theorem Text.Loosely.append_left {texts' : List Char → Prop} (h : Loosely texts cs) (before : List Char)
    (hbefore : ∀ front, texts front → texts' (before ++ front)) : Loosely texts' (before ++ cs) := by
  obtain ⟨front, hfront, rfl | rfl⟩ := h
  · exact ⟨_, hbefore _ hfront, .inl rfl⟩
  · exact ⟨_, hbefore _ hfront, .inr (List.append_assoc ..).symm⟩

/-- Texts that do not end in a line feed are taken strictly. -/
theorem Text.Loosely.strict (h : Loosely texts cs) (hcs : cs.getLast? ≠ some '\n') : texts cs := by
  obtain ⟨front, hfront, rfl | rfl⟩ := h
  · exact hfront
  · exact absurd List.getLast?_concat hcs

theorem Hint.dropFinalLineFeed_eq_iff (hfront : '\n' ∉ front) :
    dropFinalLineFeed cs = front ↔ cs = front ∨ cs = front ++ ['\n'] := by
  rw [dropFinalLineFeed]
  constructor
  · intro h
    split at h
    · next hlast =>
      obtain ⟨ds, rfl⟩ := List.getLast?_eq_some_iff.mp hlast
      rw [List.dropLast_concat] at h
      exact .inr (by rw [h])
    · exact .inl h
  · rintro (rfl | rfl)
    · exact if_neg fun hlast => hfront (List.mem_of_getLast? hlast)
    · rw [if_pos List.getLast?_concat, List.dropLast_concat]

end

/-! ## Symbols and widths -/

/-- A text denotes a kind. -/
inductive HintKind.IsSymbol : HintKind → List Char → Prop
  | symbol (kind : HintKind) : IsSymbol kind kind.symbol.toList
  | microSign : IsSymbol .micros ['\u00b5', 's']

theorem HintKind.ofSymbol?_eq_some_iff {kind : HintKind} {cs : List Char} :
    ofSymbol? cs = some kind ↔ kind.IsSymbol cs := by
  constructor
  · intro h
    unfold ofSymbol? at h
    split at h
    case h_10 =>
      cases h
      exact .microSign
    case h_11 => cases h
    all_goals
      cases h
      exact .symbol _
  · rintro (_ | _)
    · cases kind <;> rfl
    · rfl

/-- Symbols hold no digit, flag, line feed or brace. -/
theorem HintKind.IsSymbol.plain {kind : HintKind} {cs : List Char} (h : kind.IsSymbol cs) :
    ∀ c ∈ cs, isDigit c = false ∧ c ∉ ['#', '0', '\n', '{', '}'] := by
  have hall : cs.all (fun c => !isDigit c && !(['#', '0', '\n', '{', '}'].contains c)) = true := by
    cases h with
    | symbol => cases kind <;> decide
    | microSign => decide
  intro c hc
  simpa using List.all_eq_true.mp hall c hc

theorem HintKind.IsSymbol.exists_cons {kind : HintKind} {cs : List Char} (h : kind.IsSymbol cs) :
    ∃ c rest, cs = c :: rest := by
  cases h with
  | symbol => cases kind <;> exact ⟨_, _, rfl⟩
  | microSign => exact ⟨_, _, rfl⟩

namespace Hint

/-- A width denotes a number; no width denotes zero. -/
inductive IsWidth : Nat → List Char → Prop
  | absent : IsWidth 0 []
  | digits {d : Char} {ds : List Char} : '1' ≤ d ∧ d ≤ '9' → (∀ c ∈ ds, isDigit c = true) →
      IsWidth (digitsValue (d :: ds)) (d :: ds)

/-- A text denotes a hint. -/
def IsHintText (hint : Hint) (text : List Char) : Prop :=
  ∃ width symbol, IsWidth hint.width width ∧ hint.kind.IsSymbol symbol ∧
    text = (if hint.alternate then ['#'] else []) ++ ((if hint.zeroPad then ['0'] else []) ++
      (width ++ symbol))

variable {hint : Hint} {text cs rest width : List Char} {c flag : Char} {n : Nat}

/-! ## Reading -/

/-- A flag is taken off where it is written, if it cannot be taken for something else. -/
theorem takeFlag_append (flag : Char) (set : Bool) (hrest : rest.head? ≠ some flag) :
    takeFlag flag ((if set then [flag] else []) ++ rest) = (set, rest) := by
  cases set with
  | true => exact if_pos rfl
  | false =>
    cases rest with
    | nil => rfl
    | cons c rest => exact if_neg fun h => hrest (congrArg some h)

/-- Taking a flag off loses nothing. -/
theorem eq_of_takeFlag {set : Bool} (h : takeFlag flag cs = (set, rest)) :
    cs = (if set then [flag] else []) ++ rest := by
  unfold takeFlag at h
  split at h
  · next c cs =>
    split at h
    · next hc =>
      obtain ⟨rfl, rfl⟩ := Prod.mk.inj h
      rw [hc]
      rfl
    · obtain ⟨rfl, rfl⟩ := Prod.mk.inj h
      rfl
  · obtain ⟨rfl, rfl⟩ := Prod.mk.inj h
    rfl

theorem isDigit_of_le (h : '1' ≤ c ∧ c ≤ '9') : isDigit c = true := by
  have hdigit : c.isDigit = true := by
    rw [Char.isDigit, Bool.and_eq_true, decide_eq_true_eq, decide_eq_true_eq]
    exact ⟨UInt32.le_trans (by decide) h.1, h.2⟩
  rw [isDigit, digitValue?_of_isDigit hdigit]
  rfl

/-- A width is taken off where it is written, if no digit follows. -/
theorem takeWidth_append (h : IsWidth n width) (hrest : ∀ c, rest.head? = some c → isDigit c = false) :
    takeWidth (width ++ rest) = (n, rest) := by
  cases h with
  | absent =>
    cases rest with
    | nil => rfl
    | cons c rest =>
      refine if_neg fun hc => ?_
      exact absurd (isDigit_of_le hc) (by simp [hrest c rfl])
  | digits hd hds =>
    rw [List.cons_append, takeWidth, if_pos hd, takeWhile_isDigit_append hds hrest,
      dropWhile_isDigit_append hds hrest]

/-- What is taken off is a width. -/
theorem exists_of_takeWidth (h : takeWidth cs = (n, rest)) :
    ∃ width, cs = width ++ rest ∧ IsWidth n width := by
  unfold takeWidth at h
  split at h
  · next c cs =>
    split at h
    · next hc =>
      obtain ⟨rfl, rfl⟩ := Prod.mk.inj h
      refine ⟨c :: cs.takeWhile isDigit, ?_, .digits hc fun d hd => ?_⟩
      · rw [List.cons_append, List.takeWhile_append_dropWhile]
      · exact List.all_eq_true.mp List.all_takeWhile d hd
    · obtain ⟨rfl, rfl⟩ := Prod.mk.inj h
      exact ⟨[], rfl, .absent⟩
  · obtain ⟨rfl, rfl⟩ := Prod.mk.inj h
    exact ⟨[], rfl, .absent⟩

theorem IsWidth.plain (h : IsWidth n width) :
    (∀ c ∈ width, isDigit c = true) ∧ width.head? ≠ some '#' ∧ width.head? ≠ some '0' := by
  cases h with
  | absent => simp
  | digits hd hds =>
    refine ⟨List.forall_mem_cons.mpr ⟨isDigit_of_le hd, hds⟩, ?_, ?_⟩
    · intro h
      cases h
      exact absurd hd (by decide)
    · intro h
      cases h
      exact absurd hd (by decide)

/-- Texts of hints hold no character that ends a directive, and no line feed. -/
theorem IsHintText.not_mem (h : IsHintText hint text) (hc : c = '\n' ∨ c = '{' ∨ c = '}') : c ∉ text := by
  obtain ⟨width, symbol, hwidth, hsymbol, rfl⟩ := h
  have hdigit : isDigit c = false := by rcases hc with rfl | rfl | rfl <;> decide
  have hflags : c ≠ '#' ∧ c ≠ '0' := by rcases hc with rfl | rfl | rfl <;> decide
  have hnot : c ∉ width := by
    intro hmem
    rw [hwidth.plain.1 c hmem] at hdigit
    cases hdigit
  have hnot' : c ∉ symbol := by
    intro hmem
    refine (hsymbol.plain c hmem).2 ?_
    rcases hc with rfl | rfl | rfl <;> decide
  simp only [List.mem_append, not_or]
  refine ⟨?_, ?_, hnot, hnot'⟩
  · split <;> simp [hflags.1]
  · split <;> simp [hflags.2]

theorem parse_of_isHintText (h : IsHintText hint text) (hcs : cs = text ∨ cs = text ++ ['\n']) :
    parse cs = .ok hint := by
  obtain ⟨width, symbol, hwidth, hsymbol, rfl⟩ := h
  obtain ⟨tail, htail, rfl⟩ : ∃ tail, dropFinalLineFeed (symbol ++ tail) = symbol ∧
      cs = (if hint.alternate then ['#'] else []) ++ ((if hint.zeroPad then ['0'] else []) ++
        (width ++ (symbol ++ tail))) := by
    have hfeed : '\n' ∉ symbol := fun hmem => (hsymbol.plain _ hmem).2 (by decide)
    rcases hcs with rfl | rfl
    · exact ⟨[], (dropFinalLineFeed_eq_iff hfeed).mpr (.inl (by simp)), by simp⟩
    · exact ⟨['\n'], (dropFinalLineFeed_eq_iff hfeed).mpr (.inr rfl), by simp⟩
  obtain ⟨s, ss, rfl⟩ := hsymbol.exists_cons
  obtain ⟨hdigit, hflags⟩ := hsymbol.plain s List.mem_cons_self
  -- what follows a flag starts with the width or, without one, with the symbol
  have hhead {flag : Char} (hwide : width.head? ≠ some flag) (hflag : s ≠ flag) :
      (width ++ (s :: ss ++ tail)).head? ≠ some flag := by
    cases width with
    | nil => exact fun h => hflag (Option.some.inj h)
    | cons d ds => exact hwide
  obtain ⟨-, hsharp, hzero⟩ := hwidth.plain
  have hsharp : ((if hint.zeroPad then ['0'] else []) ++ (width ++ (s :: ss ++ tail))).head? ≠ some '#' := by
    cases hint.zeroPad with
    | true => exact fun h => absurd (Option.some.inj h) (by decide)
    | false => exact hhead hsharp fun h => hflags (by rw [h]; decide)
  have hzero := hhead hzero fun h => hflags (by rw [h]; decide)
  rw [parse, takeFlag_append '#' _ hsharp]
  dsimp only
  rw [takeFlag_append '0' _ hzero]
  dsimp only
  rw [takeWidth_append hwidth fun c hc => by cases hc; exact hdigit]
  dsimp only
  rw [htail, HintKind.ofSymbol?_eq_some_iff.mpr hsymbol]

/-- The texts that can be read are those that denote hints, with a line feed at their ends or without. -/
theorem parse_eq_ok_iff : parse cs = .ok hint ↔ Loosely (IsHintText hint) cs := by
  constructor
  · intro h
    unfold parse at h
    cases halternate : takeFlag '#' cs with
    | mk alternate afterSharp =>
      cases hzero : takeFlag '0' afterSharp with
      | mk zeroPad afterZero =>
        cases hwidth : takeWidth afterZero with
        | mk n rest =>
          rw [halternate] at h
          dsimp only at h
          rw [hzero] at h
          dsimp only at h
          rw [hwidth] at h
          dsimp only at h
          split at h
          · next kind hkind =>
            obtain rfl := Except.ok.inj h
            obtain ⟨width, rfl, hw⟩ := exists_of_takeWidth hwidth
            rw [eq_of_takeFlag halternate, eq_of_takeFlag hzero]
            have hsymbol := HintKind.ofSymbol?_eq_some_iff.mp hkind
            refine ⟨_, ⟨width, _, hw, hsymbol, rfl⟩, ?_⟩
            have hfeed : '\n' ∉ dropFinalLineFeed rest := fun hmem =>
              (hsymbol.plain _ hmem).2 (by decide)
            rcases (dropFinalLineFeed_eq_iff hfeed).mp rfl with hrest | hrest
            · exact .inl (by rw [← hrest])
            · refine .inr ?_
              simp only [List.append_assoc]
              rw [← hrest]
          · cases h
  · rintro ⟨text, htext, hcs⟩
    exact parse_of_isHintText htext hcs

end Hint

end DeferredLog
