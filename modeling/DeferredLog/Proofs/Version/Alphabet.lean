import DeferredLog.Version.Compatibility
import Mathlib.Data.List.Basic
import Mathlib.Data.List.TakeWhile

/-!
# The characters of a version

Each part of a version is read off the front of what the parts before it have left, and the last one has
to come to the end. So a text that is a version has no characters but those that some part can take:

    parse? text = some v → ∀ c ∈ text.toList, isVersionChar c = true           (isVersionChar_of_parse?)

In particular a version has no comma, which is what separates it from what follows it in a header.
-/

namespace DeferredLog.Version

open Text

/-- The characters that versions are written with. -/
def isVersionChar (c : Char) : Bool :=
  isBlank c || c.isAlphanum || c = '!' || c = '+' || isSeparator c

/-- Whatever is gone from `cs` when `rest` is left are characters of versions. -/
def Leaves (cs rest : List Char) : Prop := ∀ c ∈ cs, isVersionChar c = true ∨ c ∈ rest

namespace Leaves

variable {cs mid rest : List Char} {c : Char}

theorem refl (cs : List Char) : Leaves cs cs := fun _ hc => .inr hc

theorem trans (h : Leaves cs mid) (h' : Leaves mid rest) : Leaves cs rest := by
  intro c hc
  rcases h c hc with hchar | hmid
  · exact .inl hchar
  · exact h' c hmid

theorem cons (hc : isVersionChar c = true) (h : Leaves cs rest) : Leaves (c :: cs) rest := by
  intro d hd
  rcases List.mem_cons.mp hd with rfl | hd
  · exact .inl hc
  · exact h d hd

theorem append (hcs : ∀ c ∈ cs, isVersionChar c = true) : Leaves (cs ++ rest) rest := by
  intro c hc
  exact (List.mem_append.mp hc).imp_left (hcs c)

/-- Nothing that is no character of versions is gone once nothing is left. -/
theorem all_of_nil (h : Leaves cs []) : ∀ c ∈ cs, isVersionChar c = true := by
  intro c hc
  exact (h c hc).resolve_right List.not_mem_nil

end Leaves

variable {cs rest : List Char} {c : Char} {n : Nat}

theorem isVersionChar_of_isDigit (h : c.isDigit = true) : isVersionChar c = true := by
  simp [isVersionChar, Char.isAlphanum, h]

theorem isVersionChar_of_isAlpha (h : c.isUpper = true ∨ c.isLower = true) : isVersionChar c = true := by
  have halpha : c.isAlpha = true := (Bool.or_eq_true _ _).mpr h
  simp [isVersionChar, Char.isAlphanum, halpha]

theorem isVersionChar_of_isSeparator (h : isSeparator c = true) : isVersionChar c = true := by
  simp [isVersionChar, h]

/-! ## The parts -/

theorem number?_leaves (h : number? cs = some (n, rest)) : Leaves cs rest := by
  have hdigits : Leaves cs (cs.dropWhile Char.isDigit) := by
    have happend : Leaves (cs.takeWhile Char.isDigit ++ cs.dropWhile Char.isDigit)
        (cs.dropWhile Char.isDigit) :=
      .append fun c hc => isVersionChar_of_isDigit (List.mem_takeWhile_imp hc)
    rwa [List.takeWhile_append_dropWhile] at happend
  unfold number? spanDigits at h
  split at h
  · cases h
  · next htake =>
    obtain ⟨-, rfl⟩ := Prod.mk.inj htake
    obtain ⟨-, rfl⟩ := Prod.mk.inj (Option.some.inj h)
    exact hdigits

theorem dropSeparator_leaves (cs : List Char) : Leaves cs (dropSeparator cs) := by
  cases cs with
  | nil => exact .refl _
  | cons c rest =>
    rw [dropSeparator]
    split
    · next hc => exact .cons (isVersionChar_of_isSeparator hc) (.refl _)
    · exact .refl _

theorem dropMark_leaves (cs : List Char) : Leaves cs (dropMark cs) := by
  unfold dropMark
  split
  · exact .cons (by decide) (.refl _)
  · exact .refl _

theorem epochPart_leaves (cs : List Char) : Leaves cs (epochPart cs).2 := by
  unfold epochPart
  split
  · next hnumber => exact (number?_leaves hnumber).trans (.cons (by decide) (.refl _))
  · exact .refl _

theorem releaseTail_leaves (fuel : Nat) (cs : List Char) : Leaves cs (releaseTail fuel cs).2 := by
  induction fuel generalizing cs with
  | zero => exact .refl _
  | succ fuel ih =>
    unfold releaseTail
    split
    · next rest =>
      split
      · next tail hnumber => exact .cons (by decide) ((number?_leaves hnumber).trans (ih tail))
      · exact .refl _
    · exact .refl _

theorem release?_leaves {release : List Nat} (h : release? cs = some (release, rest)) :
    Leaves cs rest := by
  unfold release? at h
  split at h
  · cases h
  · next hnumber =>
    obtain ⟨-, rfl⟩ := Prod.mk.inj (Option.some.inj h)
    exact (number?_leaves hnumber).trans (releaseTail_leaves _ _)

theorem labelled?_leaves {α : Type} {labels : List (String × α)} {a : α}
    (hlabels : labels.all (fun l => l.1.toList.all isVersionChar) = true)
    (h : labelled? labels cs = some (a, n, rest)) : Leaves cs rest := by
  unfold labelled? at h
  dsimp only at h
  split at h
  · cases h
  · next b afterLabel hfound =>
    obtain ⟨l, hl, hrest⟩ := List.exists_of_findSome?_eq_some hfound
    obtain ⟨stripped, hstripped, heq⟩ := Option.map_eq_some_iff.mp hrest
    obtain ⟨-, rfl⟩ := Prod.mk.inj heq
    have hlabel : Leaves cs stripped := by
      refine (dropSeparator_leaves cs).trans ?_
      rw [← List.isPrefixOf?_eq_some_iff_append_eq.mp hstripped]
      exact .append (List.all_eq_true.mp (List.all_eq_true.mp hlabels l hl))
    have htail := hlabel.trans (dropSeparator_leaves stripped)
    split at h
    · next hnumber =>
      obtain ⟨-, rfl⟩ := Prod.mk.inj (Prod.mk.inj (Option.some.inj h)).2
      exact htail.trans (number?_leaves hnumber)
    · obtain ⟨-, rfl⟩ := Prod.mk.inj (Prod.mk.inj (Option.some.inj h)).2
      exact htail

theorem prePart_leaves (cs : List Char) : Leaves cs (prePart cs).2 := by
  unfold prePart
  split
  · next hlabelled => exact labelled?_leaves (by decide) hlabelled
  · exact .refl _

theorem hyphenated?_leaves (h : hyphenated? cs = some (n, rest)) : Leaves cs rest := by
  unfold hyphenated? at h
  split at h
  · exact .cons (by decide) (number?_leaves h)
  · cases h

theorem postPart_leaves (cs : List Char) : Leaves cs (postPart cs).2 := by
  unfold postPart
  split
  · next hhyphen => exact hyphenated?_leaves hhyphen
  · split
    · next hlabelled => exact labelled?_leaves (by decide) hlabelled
    · exact .refl _

theorem devPart_leaves (cs : List Char) : Leaves cs (devPart cs).2 := by
  unfold devPart
  split
  · next hlabelled => exact labelled?_leaves (by decide) hlabelled
  · exact .refl _

theorem pieces_ne_nil (cs : List Char) : pieces cs ≠ [] := by
  induction cs with
  | nil => simp [pieces]
  | cons c cs ih =>
    rw [pieces]
    split
    · next hnil => exact absurd hnil ih
    · split <;> simp

theorem pieces_cons (c : Char) (cs : List Char) :
    pieces (c :: cs) =
      if isSeparator c = true then [] :: pieces cs else (pieces cs).modifyHead (c :: ·) := by
  obtain ⟨p, ps, hps⟩ := List.exists_cons_of_ne_nil (pieces_ne_nil cs)
  rw [pieces, hps]
  rfl

/-- A character is a separator or belongs to a piece. -/
theorem exists_mem_pieces (hc : c ∈ cs) : isSeparator c = true ∨ ∃ p ∈ pieces cs, c ∈ p := by
  induction cs with
  | nil => cases hc
  | cons d ds ih =>
    rw [pieces_cons]
    by_cases hd : isSeparator d = true
    · rw [if_pos hd]
      rcases List.mem_cons.mp hc with rfl | hc
      · exact .inl hd
      · refine (ih hc).imp_right ?_
        rintro ⟨p, hp, hcp⟩
        exact ⟨p, List.mem_cons_of_mem _ hp, hcp⟩
    · rw [if_neg hd]
      obtain ⟨q, qs, hqs⟩ := List.exists_cons_of_ne_nil (pieces_ne_nil ds)
      rw [hqs] at ih ⊢
      rcases List.mem_cons.mp hc with rfl | hc
      · exact .inr ⟨c :: q, List.mem_cons_self, List.mem_cons_self⟩
      · refine (ih hc).imp_right ?_
        rintro ⟨p, hp, hcp⟩
        rcases List.mem_cons.mp hp with rfl | hp
        · exact ⟨d :: p, List.mem_cons_self, List.mem_cons_of_mem _ hcp⟩
        · exact ⟨p, List.mem_cons_of_mem _ hp, hcp⟩

theorem localPart?_leaves {parts : List String} (h : localPart? cs = some parts) : Leaves cs [] := by
  unfold localPart? at h
  split at h
  · exact .refl _
  · next rest =>
    dsimp only at h
    split at h
    · next hall =>
      refine .cons (by decide) fun c hc => .inl ?_
      rcases exists_mem_pieces hc with hseparator | ⟨p, hp, hcp⟩
      · exact isVersionChar_of_isSeparator hseparator
      · have hpiece := List.all_eq_true.mp hall p hp
        rw [Bool.and_eq_true, List.all_eq_true] at hpiece
        rcases Bool.or_eq_true _ _ ▸ hpiece.2 c hcp with hdigit | hlower
        · exact isVersionChar_of_isDigit hdigit
        · exact isVersionChar_of_isAlpha (.inr hlower)
    · cases h
  · cases h

/-! ## The whole text -/

theorem trim_leaves (cs : List Char) : Leaves cs (trim isBlank cs) := by
  have hdrop (ds : List Char) : Leaves ds (ds.dropWhile isBlank) := by
    have happend : Leaves (ds.takeWhile isBlank ++ ds.dropWhile isBlank) (ds.dropWhile isBlank) :=
      .append fun c hc => by simp [isVersionChar, List.mem_takeWhile_imp hc]
    rwa [List.takeWhile_append_dropWhile] at happend
  refine (hdrop cs).trans fun c hc => ?_
  rw [trim, List.mem_reverse]
  exact hdrop _ c (List.mem_reverse.mpr hc)

/-- Only letters change with their case. -/
theorem isVersionChar_of_toLower (h : isVersionChar c.toLower = true) : isVersionChar c = true := by
  by_cases hupper : c.isUpper = true
  · exact isVersionChar_of_isAlpha (.inl hupper)
  · have hsame : c.toLower = c := dif_neg fun hrange => hupper (decide_eq_true hrange)
    rwa [hsame] at h

/-- A version has only characters that versions are written with. -/
theorem isVersionChar_of_parse? {text : String} {v : Version} (h : parse? text = some v) :
    ∀ c ∈ text.toList, isVersionChar c = true := by
  unfold parse? at h
  dsimp only at h
  split at h
  · cases h
  · next release afterRelease hrelease =>
    obtain ⟨parts, hparts, -⟩ := Option.map_eq_some_iff.mp h
    have hlower : Leaves ((trim isBlank text.toList).map Char.toLower) [] :=
      (dropMark_leaves _).trans <| (epochPart_leaves _).trans <| (release?_leaves hrelease).trans <|
        (prePart_leaves _).trans <| (postPart_leaves _).trans <| (devPart_leaves _).trans <|
        localPart?_leaves hparts
    intro c hc
    rcases trim_leaves text.toList c hc with hblank | htrimmed
    · exact hblank
    · exact isVersionChar_of_toLower (hlower.all_of_nil _ (List.mem_map_of_mem htrimmed))

/-- A supported version has no other characters either. -/
theorem not_mem_of_check {marker supported : String} {v : Version} {c : Char}
    (h : check marker supported = .ok v) (hc : isVersionChar c = false) : c ∉ marker.toList := by
  intro hmem
  unfold check at h
  cases hparse : parse? marker with
  | none =>
    rw [hparse] at h
    cases h
  | some found =>
    have hchar := isVersionChar_of_parse? hparse c hmem
    rw [hc] at hchar
    cases hchar

end DeferredLog.Version
