import DeferredLog.Proofs.Display.Outcome
import DeferredLog.Proofs.Wire.Fitting

/-!
# Which hint a value is shown with

Rendering hands hints down from directive to directive. The outline of a format string hands nothing
down: it is a flat list of characters and of values that hold no others, each with the path of the
directives that lead to it, and only a value's own text asks for a hint, that of the innermost directive
on its path that has one. Both come to the same:

    render formats f args inherited = .ok cs ↔ itemsText? inherited (outline formats f args) = some cs
                                                                              (render_hints_innermost)

The induction is on a value, for all paths at once. What it carries is that the hint handed to the value is
the innermost one on the path (`innermostHint_cons`).
-/

namespace DeferredLog

namespace Display

/-! ## The outline -/

/-- A part of what a format string shows. -/
inductive Item where
  | verbatim (cs : List Char)
  /-- A value that holds no others; the directives on `path` lead to it, the innermost one first. -/
  | leaf (v : Value) (path : List Directive)

/-- What a fragment shows, given what the arguments show at the end of a path. -/
def fragmentItems (args : List (List Directive → List Item)) (path : List Directive) :
    Fragment → List Item
  | .literal s => [.verbatim s.toList]
  | .directive d =>
    match args[d.position]? with
    | some items => items (d :: path)
    | none => []

section
variable (formats : Nat → Except Fault FormatString)

mutual

/-- What a value shows at the end of a path. -/
def valueItems (v : Value) (path : List Directive) : List Item :=
  match v with
  | .nested index args =>
    match formats index with
    | .ok f => f.fragments.flatMap (fragmentItems (argumentItems args) path)
    | .error _ => []
  | .formatSlice _ vs =>
    .verbatim ['['] ::
      ([.verbatim [',', ' ']].intercalate ((argumentItems vs).map fun items => items path) ++
        [.verbatim [']']])
  | v => [.leaf v path]
termination_by structural v

/-- What each of some values shows at the end of a path. -/
def argumentItems (vs : List Value) : List (List Directive → List Item) :=
  match vs with
  | [] => []
  | v :: vs => valueItems v :: argumentItems vs
termination_by structural vs

end

/-- What a format string shows that is filled in with values. -/
def outline (f : FormatString) (args : List Value) : List Item :=
  f.fragments.flatMap (fragmentItems (argumentItems formats args) [])

end

/-! ## The text of an outline -/

/-- The hint of the innermost directive on a path that has one. The inherited hint is outside of all. -/
def innermostHint (inherited : Option Hint) (path : List Directive) : Option Hint :=
  (path.findSome? Directive.hint).or inherited

/-- The text of a value that holds no others, at the end of a path. -/
def leafText? (v : Value) (path : List Directive) (hint : Option Hint) : Option (List Char) :=
  match v with
  | .integer t n => some (integerText t.bits n hint)
  | .float x => floatText x hint
  | .bool b => some (if b then "true".toList else "false".toList)
  | .char c => some (if isDebug hint then escapedText '\'' [c] else [c])
  | .str s => some (if isDebug hint then escapedText '"' s.toList else s.toList)
  | .istr _ format =>
    if isDebug hint then (spelled? format).map (escapedText '"') else format.text?.map String.toList
  | .bytes data => some (bytesText data hint)
  | .bitfield _ n => path.head?.bind fun d => (bitfieldText d n hint).toOption
  | .nested _ _ => none
  | .formatSlice _ _ => none

/-- The text of an item. -/
def Item.text? (inherited : Option Hint) : Item → Option (List Char)
  | .verbatim cs => some cs
  | .leaf v path => leafText? v path (innermostHint inherited path)

/-- The texts of items in order. -/
def itemsText? (inherited : Option Hint) : List Item → Option (List Char)
  | [] => some []
  | item :: items => do
    let cs ← item.text? inherited
    let tail ← itemsText? inherited items
    some (cs ++ tail)

variable {t : Table} {formats : Nat → Except Fault FormatString} {inherited hint : Option Hint}
  {path : List Directive} {args : List Value}

theorem innermostHint_cons (inherited : Option Hint) (d : Directive) (path : List Directive) :
    innermostHint inherited (d :: path) = d.hint.or (innermostHint inherited path) := by
  unfold innermostHint
  rw [List.findSome?_cons]
  cases d.hint <;> rfl

theorem itemsText?_append (xs ys : List Item) :
    itemsText? inherited (xs ++ ys) =
      (itemsText? inherited xs).bind fun cs => (itemsText? inherited ys).map (cs ++ ·) := by
  induction xs with
  | nil => simp [itemsText?]
  | cons x xs ih =>
    simp only [List.cons_append, itemsText?, ih]
    cases x.text? inherited with
    | none => rfl
    | some cs =>
      cases itemsText? inherited xs with
      | none => rfl
      | some tail => cases itemsText? inherited ys <;> simp

theorem itemsText?_verbatim_cons (cs : List Char) (items : List Item) :
    itemsText? inherited (.verbatim cs :: items) = (itemsText? inherited items).map (cs ++ ·) := by
  simp only [itemsText?, Item.text?]
  cases itemsText? inherited items <;> rfl

theorem itemsText?_leaf (v : Value) (path : List Directive) :
    itemsText? inherited [.leaf v path] = leafText? v path (innermostHint inherited path) := by
  simp only [itemsText?, Item.text?]
  cases leafText? v path (innermostHint inherited path) <;> simp

theorem argumentItems_eq_map (vs : List Value) :
    argumentItems formats vs = vs.map (valueItems formats) := by
  induction vs with
  | nil => rfl
  | cons v vs ih => rw [argumentItems, ih, List.map_cons]

/-! ## Both come to the same -/

/-- The characters of pieces that are still to be computed, if there are any. -/
def joined? (x : Except Fault (List Piece)) : Option (List Char) := (x >>= joinPieces).toOption

/-- The characters of a piece that is still to be computed, if there are any. -/
def shown? (x : Except Fault Piece) : Option (List Char) := joined? (x >>= fun p => .ok [p])

theorem joined?_cons (x : Except Fault Piece) (y : Except Fault (List Piece)) :
    joined? (x >>= fun p => y >>= fun ps => .ok (p :: ps)) =
      (shown? x).bind fun cs => (joined? y).map (cs ++ ·) := by
  cases x with
  | error e => rfl
  | ok p =>
    cases p with
    | data v => cases y <;> rfl
    | chars cs =>
      cases y with
      | error e => simp [joined?, shown?, joinPieces, bind, Except.bind, Except.toOption]
      | ok ps =>
        simp only [joined?, shown?, joinPieces, bind, Except.bind]
        cases joinPieces ps <;> simp [Except.toOption]

theorem shown?_chars (cs : List Char) : shown? (.ok (.chars cs)) = some cs := by
  show some (cs ++ []) = some cs
  rw [List.append_nil]

/-- Under the hint of a path, a value is shown as its items are. -/
def ShownAsItems (formats : Nat → Except Fault FormatString) (inherited : Option Hint) (v : Value) :
    Prop :=
  ∀ d path, shown? (renderer formats v d (innermostHint inherited (d :: path))) =
    itemsText? inherited (valueItems formats v (d :: path))

theorem pieces_eq_items (hargs : ∀ v ∈ args, ShownAsItems formats inherited v) (path : List Directive)
    (fragments : List Fragment) (hpos : ∀ d, .directive d ∈ fragments → d.position < args.length) :
    joined? (pieces (renderers formats args) (innermostHint inherited path) fragments) =
      itemsText? inherited (fragments.flatMap (fragmentItems (argumentItems formats args) path)) := by
  induction fragments with
  | nil => rfl
  | cons fragment rest ih =>
    have hrest := ih fun d hd => hpos d (List.mem_cons_of_mem _ hd)
    rw [List.flatMap_cons, itemsText?_append, ← hrest]
    cases fragment with
    | literal s =>
      have htext : itemsText? inherited (fragmentItems (argumentItems formats args) path (.literal s)) =
          shown? (.ok (.chars s.toList)) := by
        rw [shown?_chars, fragmentItems, itemsText?_verbatim_cons]
        simp [itemsText?]
      rw [htext]
      exact joined?_cons (.ok (.chars s.toList)) _
    | directive d =>
      have hlt := hpos d List.mem_cons_self
      have hv : args[d.position]? = some args[d.position] := List.getElem?_eq_getElem hlt
      have htext := hargs _ (List.getElem_mem hlt) d path
      simp only [pieces, fragmentItems, renderers_eq_map, argumentItems_eq_map, List.getElem?_map, hv,
        Option.map_some, ← innermostHint_cons, ← htext]
      exact joined?_cons _ _

theorem elementTexts_eq_items {elements : List Value}
    (h : ∀ v ∈ elements, ShownAsItems formats inherited v) (d : Directive) (path : List Directive) :
    (elementTexts d (innermostHint inherited (d :: path)) (renderers formats elements)).toOption =
      (elements.map fun v => valueItems formats v (d :: path)).mapM (itemsText? inherited) := by
  induction elements with
  | nil => rfl
  | cons v rest ih =>
    have hrest := ih fun w hw => h w (List.mem_cons_of_mem _ hw)
    simp only [renderers, elementTexts, List.map_cons, List.mapM_cons, ← hrest,
      ← h v List.mem_cons_self d path]
    cases renderer formats v d (innermostHint inherited (d :: path)) with
    | error e => rfl
    | ok p =>
      cases hp : joinPieces [p] with
      | error e => simp [shown?, joined?, hp, bind, Except.bind, Except.toOption]
      | ok cs =>
        simp only [shown?, joined?, hp, bind, Except.bind, Fault.lift_eq_self]
        cases elementTexts d (innermostHint inherited (d :: path)) (renderers formats rest) <;> rfl

/-- Texts that stand between separators. -/
theorem itemsText?_intercalate (sep : List Char) (lists : List (List Item)) :
    itemsText? inherited ([.verbatim sep].intercalate lists) =
      (lists.mapM (itemsText? inherited)).map sep.intercalate := by
  induction lists with
  | nil => rfl
  | cons first rest ih =>
    cases rest with
    | nil => cases hfirst : itemsText? inherited first <;> simp [hfirst]
    | cons second rest =>
      rw [List.intercalate_cons_cons, List.append_assoc, itemsText?_append, List.singleton_append,
        itemsText?_verbatim_cons, ih]
      simp only [List.mapM_cons]
      cases itemsText? inherited first with
      | none => rfl
      | some cs =>
        cases itemsText? inherited second with
        | none => rfl
        | some cs' =>
          cases rest.mapM (itemsText? inherited) with
          | none => rfl
          | some texts => simp [List.intercalate_cons_cons]

/-! ## Values that fit -/

theorem exists_fits_of_fitsAll {types : List ArgType} (h : Wire.FitsAll t types args) {v : Value}
    (hv : v ∈ args) : ∃ type, Wire.Fits t type v := by
  induction args generalizing types with
  | nil => cases hv
  | cons w ws ih =>
    cases types with
    | nil => cases h
    | cons type types =>
      rcases List.mem_cons.mp hv with rfl | hv
      · exact ⟨type, h.1⟩
      · exact ih h.2 hv

/-- The elements of a slice fit like values that travel with their index. -/
theorem fits_of_fitsElements {index : Nat} {elements : List Value}
    (h : Wire.FitsElements t index elements) : ∀ v ∈ elements, Wire.Fits t .format v := by
  induction elements with
  | nil => simp
  | cons w ws ih =>
    cases w with
    | nested i args =>
      obtain ⟨⟨rfl, hslots⟩, hrest⟩ := h
      intro v hv
      rcases List.mem_cons.mp hv with rfl | hv
      · exact hslots
      · exact ih hrest v hv
    | _ => cases h

theorem shownAsItems_leaf {v : Value} (hitems : ∀ path, valueItems formats v path = [.leaf v path])
    (htext : ∀ d path hint, shown? (renderer formats v d hint) = leafText? v (d :: path) hint) :
    ShownAsItems formats inherited v := by
  intro d path
  rw [hitems, itemsText?_leaf]
  exact htext d path _

theorem shown?_tableText (format : Json) (hint : Option Hint) (index : Nat) (path : List Directive) :
    shown? (tableText format hint) = leafText? (.istr index format) path hint := by
  simp only [tableText, leafText?]
  by_cases hdebug : isDebug hint = true
  · rw [if_pos hdebug, if_pos hdebug]
    cases spelled? format with
    | none => rfl
    | some cs => exact shown?_chars _
  · rw [if_neg hdebug, if_neg hdebug]
    cases format with
    | string s => exact shown?_chars _
    | _ => rfl

theorem shownAsItems_nested {index : Nat} {args : List Value} {f : FormatString}
    (hf : t.freshFormat index = .ok f) (hargs : Wire.FitsAll t f.arguments args)
    (ih : ∀ v ∈ args, ShownAsItems t.freshFormat inherited v) :
    ShownAsItems t.freshFormat inherited (.nested index args) := by
  intro d path
  have hpos (d' : Directive) (hd' : .directive d' ∈ f.fragments) : d'.position < args.length := by
    have hslotted := Table.wellSlotted_of_freshFormat hf
    obtain ⟨slot, hslot, -⟩ := hslotted.covered d' (FormatString.mem_directives_iff.mpr hd')
    rw [hargs.length_eq]
    exact (List.getElem?_eq_some_iff.mp hslot).1
  have hpieces := pieces_eq_items ih (d :: path) f.fragments hpos
  simp only [valueItems, hf, renderer, ← hpieces, fill, Fault.lift_eq_self]
  show shown? ((pieces (renderers t.freshFormat args) (innermostHint inherited (d :: path))
    f.fragments >>= joinPieces) >>= fun cs => .ok (.chars cs)) = joined? _
  unfold joined?
  cases pieces (renderers t.freshFormat args) (innermostHint inherited (d :: path)) f.fragments >>=
      joinPieces with
  | error e => rfl
  | ok cs => exact shown?_chars cs

theorem shownAsItems_formatSlice {index : Option Nat} {elements : List Value}
    (ih : ∀ v ∈ elements, ShownAsItems formats inherited v) :
    ShownAsItems formats inherited (.formatSlice index elements) := by
  intro d path
  have htexts := elementTexts_eq_items ih d path
  simp only [valueItems, renderer, itemsText?_verbatim_cons, itemsText?_append, itemsText?_intercalate,
    argumentItems_eq_map, List.map_map, Function.comp_def]
  rw [← htexts]
  cases elementTexts d (innermostHint inherited (d :: path)) (renderers formats elements) with
  | error e => rfl
  | ok texts =>
    refine (shown?_chars _).trans ?_
    simp [itemsText?, Except.toOption]

/-- **A value is shown as its items are**, under the hint of any path. -/
theorem shownAsItems_of_fits {v : Value} {type : ArgType} (hv : Wire.Fits t type v)
    (inherited : Option Hint) : ShownAsItems t.freshFormat inherited v := by
  induction v using Value.induction generalizing type with
  | integer k n => exact shownAsItems_leaf (fun _ => rfl) fun _ _ _ => shown?_chars _
  | float x =>
    refine shownAsItems_leaf (fun _ => rfl) fun d path hint => ?_
    simp only [renderer, leafText?]
    cases floatText x hint with
    | none => rfl
    | some cs => exact shown?_chars cs
  | bool b => exact shownAsItems_leaf (fun _ => rfl) fun _ _ _ => shown?_chars _
  | char c => exact shownAsItems_leaf (fun _ => rfl) fun _ _ _ => shown?_chars _
  | str s => exact shownAsItems_leaf (fun _ => rfl) fun _ _ _ => shown?_chars _
  | bytes data => exact shownAsItems_leaf (fun _ => rfl) fun _ _ _ => shown?_chars _
  | istr index format =>
    refine shownAsItems_leaf (fun _ => rfl) fun d path hint => ?_
    simp only [← shown?_tableText, renderer, Fault.lift_eq_self]
  | bitfield r n =>
    refine shownAsItems_leaf (fun _ => rfl) fun d path hint => ?_
    simp only [renderer, leafText?, Fault.lift_eq_self, List.head?_cons, Option.bind_some]
    cases bitfieldText d n hint with
    | error e => rfl
    | ok cs => exact shown?_chars cs
  | nested index args ih =>
    obtain ⟨-, f, hf, hargs⟩ : t.HasSlots index fun types => Wire.FitsAll t types args := by
      cases type with
      | format => exact hv
      | nested tag => exact hv.2
      | _ => cases hv
    refine shownAsItems_nested hf hargs fun w hw => ?_
    obtain ⟨_, hfits⟩ := exists_fits_of_fitsAll hargs hw
    exact ih w hw hfits
  | formatSlice index elements ih =>
    apply shownAsItems_formatSlice
    intro w hw
    cases type with
    | formatSlice =>
      cases index with
      | none =>
        obtain rfl : elements = [] := hv
        cases hw
      | some index => exact ih w hw (fits_of_fitsElements hv.2 w hw)
    | _ => cases hv

/-! ## Format strings -/

theorem render_eq_items (args : List Value) (hargs : ∀ v ∈ args, ∃ type, Wire.Fits t type v)
    (f : FormatString) (hpos : ∀ d, .directive d ∈ f.fragments → d.position < args.length)
    (inherited : Option Hint) :
    (render t.freshFormat f args inherited).toOption =
      itemsText? inherited (outline t.freshFormat f args) := by
  have hshown : ∀ v ∈ args, ShownAsItems t.freshFormat inherited v := by
    intro v hv
    obtain ⟨_, hfits⟩ := hargs v hv
    exact shownAsItems_of_fits hfits inherited
  have hpieces := pieces_eq_items hshown [] f.fragments hpos
  rw [outline, ← hpieces]
  show _ = (pieces (renderers t.freshFormat args) inherited f.fragments >>= joinPieces).toOption
  simp only [render, fill, Fault.lift_eq_self]

theorem toOption_eq_some_iff {α : Type} {x : Except Fault α} {a : α} :
    x.toOption = some a ↔ x = .ok a := by
  cases x <;> simp [Except.toOption]

/-- The text of an outline is that of its fragments, each taken alone. -/
theorem itemsText?_flatMap_eq_some_iff {α : Type} (g : α → List Item) (xs : List α) (cs : List Char) :
    itemsText? inherited (xs.flatMap g) = some cs ↔
      ∃ texts, List.Forall₂ (fun x text => itemsText? inherited (g x) = some text) xs texts ∧
        texts.flatten = cs := by
  induction xs generalizing cs with
  | nil =>
    constructor
    · intro h
      exact ⟨[], .nil, Option.some.inj h⟩
    · rintro ⟨texts, htexts, rfl⟩
      cases htexts
      rfl
  | cons x xs ih =>
    rw [List.flatMap_cons, itemsText?_append]
    constructor
    · intro h
      obtain ⟨text, htext, htail⟩ := Option.bind_eq_some_iff.mp h
      obtain ⟨tail, hall, rfl⟩ := Option.map_eq_some_iff.mp htail
      obtain ⟨texts, htexts, rfl⟩ := (ih tail).mp hall
      exact ⟨text :: texts, .cons htext htexts, rfl⟩
    · rintro ⟨texts, htexts, rfl⟩
      cases htexts with
      | @cons _ text _ texts htext htexts =>
        rw [htext, (ih texts.flatten).mpr ⟨texts, htexts, rfl⟩]
        rfl

/-- What a directive shows is a matter of its own argument. -/
theorem render_directive_congr {m : Type → Type} [Monad m] [MonadExceptOf Fault m]
    (formats : Nat → m FormatString) (types : List ArgType) {d : Directive} {args args' : List Value}
    (h : args'[d.position]? = args[d.position]?) (inherited : Option Hint) :
    render formats ⟨[.directive d], types⟩ args' inherited =
      render formats ⟨[.directive d], types⟩ args inherited := by
  simp only [render, fill, pieces, renderers_eq_map, List.getElem?_map, h]

/-- **Hints reach values from the innermost directive.** A format string filled in with values that fit
has the text of its outline. It is made of the texts of its fragments, each taken alone, and what a
directive shows depends on no argument but its own. -/
theorem render_hints_innermost (t : Table) (cache : FormatCache) (hc : t.Remembers cache)
    (f : FormatString) (hf : ∀ d ∈ f.directives, d.position < f.arguments.length) (args : List Value)
    (hargs : Wire.FitsAll t f.arguments args) (inherited : Option Hint) :
    (∀ cs, (render t.format f args inherited).result cache = .ok cs ↔
      itemsText? inherited (outline t.freshFormat f args) = some cs) ∧
    (∀ cs, (render t.format f args inherited).result cache = .ok cs ↔
      ∃ texts, List.Forall₂ (fun fragment text =>
        (render t.format ⟨[fragment], f.arguments⟩ args inherited).result cache = .ok text)
          f.fragments texts ∧ texts.flatten = cs) ∧
    ∀ (d : Directive) (args' : List Value), args'[d.position]? = args[d.position]? →
      (render t.format ⟨[.directive d], f.arguments⟩ args' inherited).result cache =
        (render t.format ⟨[.directive d], f.arguments⟩ args inherited).result cache := by
  have hfits : ∀ v ∈ args, ∃ type, Wire.Fits t type v := fun v hv => exists_fits_of_fitsAll hargs hv
  have hpos : ∀ d, .directive d ∈ f.fragments → d.position < args.length :=
    fun d hd => hargs.length_eq ▸ hf d (FormatString.mem_directives_iff.mpr hd)
  have hshows (g : FormatString) (hg : ∀ fragment ∈ g.fragments, fragment ∈ f.fragments)
      (cs : List Char) : (render t.format g args inherited).result cache = .ok cs ↔
        itemsText? inherited (outline t.freshFormat g args) = some cs := by
    rw [(render_agrees t.format_agrees g args inherited cache hc).1, ← toOption_eq_some_iff,
      render_eq_items args hfits g (fun d hd => hpos d (hg _ hd))]
  have hsingle (fragment : Fragment) (hmem : fragment ∈ f.fragments) (text : List Char) :
      itemsText? inherited (fragmentItems (argumentItems t.freshFormat args) [] fragment) = some text ↔
        (render t.format ⟨[fragment], f.arguments⟩ args inherited).result cache = .ok text := by
    rw [hshows _ (by simpa using hmem), outline, List.flatMap_singleton]
  refine ⟨hshows f fun _ h => h, fun cs => ?_, fun d args' h => ?_⟩
  · rw [hshows f fun _ h => h, outline, itemsText?_flatMap_eq_some_iff]
    constructor
    · rintro ⟨texts, htexts, rfl⟩
      have hmem := (List.forall₂_and_left _ _).mpr ⟨fun fragment h => h, htexts⟩
      exact ⟨texts, hmem.imp fun _ _ h => (hsingle _ h.1 _).mp h.2, rfl⟩
    · rintro ⟨texts, htexts, rfl⟩
      have hmem := (List.forall₂_and_left _ _).mpr ⟨fun fragment h => h, htexts⟩
      exact ⟨texts, hmem.imp fun _ _ h => (hsingle _ h.1 _).mpr h.2, rfl⟩
  · rw [render_directive_congr t.format f.arguments h]

/-- A list under a hint, and a number without one. -/
def sampleHinted : FormatString :=
  ⟨[.directive ⟨0, .formatSlice, some ⟨.lowerHex, false, false, 0⟩⟩, .literal " ",
    .directive ⟨1, .integer .u8, none⟩], [.formatSlice, .integer .u8]⟩

/-- Two elements for the list, and the number. -/
def sampleHintedValues : List Value :=
  [.formatSlice (some 2) [.nested 2 [.integer .u8 254], .nested 2 [.integer .u8 255]],
    .integer .u8 255]

theorem render_hints_innermost_sample :
    Table.sample.Remembers {} ∧
      (∀ d ∈ sampleHinted.directives, d.position < sampleHinted.arguments.length) ∧
      Wire.FitsAll Table.sample sampleHinted.arguments sampleHintedValues ∧
      (render Table.sample.format sampleHinted sampleHintedValues none).result {} =
        .ok "[<fe>, <ff>] 255".toList := by
  have hslots : ∀ d ∈ sampleHinted.directives, d.position < sampleHinted.arguments.length := by decide
  have hfits : Wire.FitsAll Table.sample sampleHinted.arguments sampleHintedValues :=
    ⟨Wire.fits_of_conforms _ (conforms_slice (by decide) (by decide)), ⟨rfl, by decide, by decide⟩,
      trivial⟩
  have hshows := (render_hints_innermost Table.sample {} .nothing sampleHinted hslots sampleHintedValues
    hfits none).1
  have houtline : itemsText? none (outline Table.sample.freshFormat sampleHinted sampleHintedValues) =
      some "[<fe>, <ff>] 255".toList := by
    cbv
  exact ⟨.nothing, hslots, hfits, (hshows _).mpr houtline⟩

end Display

end DeferredLog
