import DeferredLog.Check.Formats
import DeferredLog.Frame.Line
import DeferredLog.Proofs.Table.Memory

/-!
# Showing with remembered formats

Nested values are shown with the formats of their entries, which are looked up again. With the formats
that a table remembers, a value, a frame, a line and a report on the table come out as they do with
fresh formats:

    (∀ i, Agrees I (formats i) (formats' i)) → Agrees I (render formats f args hint) (render formats' f args hint)
-/

namespace DeferredLog

open Cached (Agrees)

/-! ## Values and what they hold -/

/-- Induction on a value, with the hypothesis for all values that a nested value or a slice holds. -/
@[elab_as_elim]
theorem Value.induction {motive : Value → Prop}
    (integer : ∀ k n, motive (.integer k n)) (float : ∀ x, motive (.float x))
    (bool : ∀ b, motive (.bool b)) (char : ∀ c, motive (.char c)) (str : ∀ s, motive (.str s))
    (istr : ∀ index format, motive (.istr index format)) (bytes : ∀ data, motive (.bytes data))
    (nested : ∀ index args, (∀ v ∈ args, motive v) → motive (.nested index args))
    (formatSlice : ∀ index elements, (∀ v ∈ elements, motive v) → motive (.formatSlice index elements))
    (bitfield : ∀ r n, motive (.bitfield r n)) (v : Value) : motive v :=
  match v with
  | .integer k n => integer k n
  | .float x => float x
  | .bool b => bool b
  | .char c => char c
  | .str s => str s
  | .istr index format => istr index format
  | .bytes data => bytes data
  | .nested index args => nested index args fun v _ =>
    Value.induction integer float bool char str istr bytes nested formatSlice bitfield v
  | .formatSlice index elements => formatSlice index elements fun v _ =>
    Value.induction integer float bool char str istr bytes nested formatSlice bitfield v
  | .bitfield r n => bitfield r n

namespace Display

theorem renderers_eq_map {m : Type → Type} [Monad m] [MonadExceptOf Fault m]
    (formats : Nat → m FormatString) (vs : List Value) :
    renderers formats vs = vs.map (renderer formats) := by
  induction vs with
  | nil => rw [renderers]; rfl
  | cons v vs ih => rw [renderers, ih]; rfl

/-! ## Rendering -/

variable {I : FormatCache → Prop} {formats : Nat → Cached FormatString}
  {formats' : Nat → Except Fault FormatString} {args : List Value}

/-- Showing a value has the same outcome for every directive and hint. -/
def ShowsAlike (I : FormatCache → Prop) (formats : Nat → Cached FormatString)
    (formats' : Nat → Except Fault FormatString) (v : Value) : Prop :=
  ∀ d hint, Agrees I (renderer formats v d hint) (renderer formats' v d hint)

theorem pieces_agrees (h : ∀ v ∈ args, ShowsAlike I formats formats' v) (inherited : Option Hint)
    (fragments : List Fragment) :
    Agrees I (pieces (renderers formats args) inherited fragments)
      (pieces (renderers formats' args) inherited fragments) := by
  induction fragments with
  | nil => exact .pure _
  | cons fragment rest ih =>
    cases fragment with
    | literal s => exact .bind ih fun tail _ => .pure _
    | directive d =>
      simp only [pieces, renderers_eq_map, List.getElem?_map] at ih ⊢
      cases hv : args[d.position]? with
      | none => exact .throw _
      | some v =>
        refine .bind (h v (List.mem_of_getElem? hv) d _) fun piece _ => ?_
        exact .bind ih fun tail _ => .pure _

theorem fill_agrees (h : ∀ v ∈ args, ShowsAlike I formats formats' v) (f : FormatString)
    (inherited : Option Hint) :
    Agrees I (fill f (renderers formats args) inherited) (fill f (renderers formats' args) inherited) :=
  .bind (pieces_agrees h inherited f.fragments) fun _ _ => .lift _

theorem elementTexts_agrees {elements : List Value}
    (h : ∀ v ∈ elements, ShowsAlike I formats formats' v) (d : Directive) (hint : Option Hint) :
    Agrees I (elementTexts d hint (renderers formats elements))
      (elementTexts d hint (renderers formats' elements)) := by
  induction elements with
  | nil => exact .pure _
  | cons v rest ih =>
    simp only [renderers, elementTexts]
    refine .bind (h v List.mem_cons_self d hint) fun piece _ => .bind (.lift _) fun cs _ => ?_
    exact .bind (ih fun w hw => h w (List.mem_cons_of_mem _ hw)) fun tail _ => .pure _

variable (hf : ∀ index, Agrees I (formats index) (formats' index))

include hf

theorem showsAlike (v : Value) : ShowsAlike I formats formats' v := by
  induction v using Value.induction with
  | float x =>
    intro d hint
    simp only [renderer]
    cases floatText x hint with
    | some cs => exact .pure _
    | none => exact .throw _
  | istr index format => exact fun d hint => .lift _
  | nested index args ih =>
    intro d hint
    simp only [renderer]
    exact .bind (hf index) fun f _ => .bind (fill_agrees ih f hint) fun cs _ => .pure _
  | formatSlice index elements ih =>
    intro d hint
    simp only [renderer]
    exact .bind (elementTexts_agrees ih d hint) fun texts _ => .pure _
  | bitfield r n =>
    intro d hint
    simp only [renderer]
    exact .bind (.lift _) fun cs _ => .pure _
  | _ =>
    intro d hint
    simp only [renderer]
    exact .pure _

theorem render_agrees (f : FormatString) (args : List Value) (inherited : Option Hint) :
    Agrees I (render formats f args inherited) (render formats' f args inherited) :=
  fill_agrees (fun v _ => showsAlike hf v) f inherited

end Display

/-! ## Frames -/

namespace Frame

variable {I : FormatCache → Prop} {formats : Nat → Cached FormatString}
  {formats' : Nat → Except Fault FormatString}
  (hf : ∀ index, Agrees I (formats index) (formats' index)) {t : Table} (frame : Frame)

include hf

theorem message_agrees : Agrees I (frame.message formats) (frame.message formats') := by
  refine .bind (hf _) fun f _ => ?_
  exact .bind (Display.render_agrees hf f frame.args none) fun cs _ => .pure _

theorem timestampText_agrees :
    Agrees I (frame.timestampText t formats) (frame.timestampText t formats') := by
  unfold timestampText
  split
  · exact .pure _
  · refine .bind (hf _) fun f _ => ?_
    exact .bind (Display.render_agrees hf f frame.timestamp none) fun cs _ => .pure _

theorem line_agrees (options : LineOptions) :
    Agrees I (frame.line t formats options) (frame.line t formats' options) := by
  refine .bind (timestampText_agrees hf frame) fun timestamp _ => ?_
  exact .bind (message_agrees hf frame) fun message _ => .pure _

theorem logRecord?_agrees (logger : String) (threshold : Int) :
    Agrees I (frame.logRecord? t formats logger threshold)
      (frame.logRecord? t formats' logger threshold) := by
  simp only [logRecord?]
  split
  · exact .pure _
  · refine .bind (message_agrees hf frame) fun message _ => ?_
    exact .bind (timestampText_agrees hf frame) fun timestamp _ => .pure _

end Frame

/-! ## Reports on a table -/

namespace Table

variable {t : Table}

/-- The complaint about an entry, its format being parsed anew. -/
def freshFinding? (t : Table) (e : Entry) : Except Fault (Option Finding) :=
  match t.freshFormat e.index with
  | .ok _ =>
    .ok (if t.timestamp = some e.index ∧ e.level.isSome then some .timestampStatement else none)
  | .error fault => if fault.isFormatFault then .ok (some (.malformed fault)) else .error fault

/-- The complaints about some entries, their formats being parsed anew. -/
def freshFindings (t : Table) : List Entry → Except Fault (List (Entry × Finding))
  | [] => .ok []
  | e :: es => do
    let finding ← t.freshFinding? e
    let rest ← freshFindings t es
    match finding with
    | some f => pure ((e, f) :: rest)
    | none => pure rest

theorem finding?_agrees (t : Table) (e : Entry) :
    Agrees t.Remembers (t.finding? e) (t.freshFinding? e) := by
  refine (t.format_agrees e.index).attempt.bind_ok ?_
  unfold freshFinding?
  cases t.freshFormat e.index with
  | ok f => exact .pure _
  | error fault =>
    dsimp only
    split
    · exact .pure _
    · exact .throw _

theorem findings_agrees (t : Table) (es : List Entry) :
    Agrees t.Remembers (t.findings es) (t.freshFindings es) := by
  induction es with
  | nil => exact .pure _
  | cons e es ih =>
    refine .bind (finding?_agrees t e) fun finding _ => .bind ih fun rest _ => ?_
    cases finding <;> exact .pure _

theorem check_agrees (t : Table) :
    Agrees t.Remembers t.check (t.freshFindings t.entries >>= fun found => .ok (reportText found)) :=
  .bind (findings_agrees t t.entries) fun _ _ => .pure _

theorem formatAll_agrees (t : Table) :
    Agrees t.Remembers t.formatAll (visitAll t.freshFormat t.indices) :=
  visitAll_agrees fun index _ => t.format_agrees index

theorem formatAt_agrees (t : Table) (index : Int) :
    ∃ y, Agrees t.Remembers (t.formatAt index) y := by
  cases index with
  | ofNat index => exact ⟨_, t.format_agrees index⟩
  | negSucc n => exact ⟨_, .throw _⟩

end Table

end DeferredLog
