import DeferredLog.Display.Escape
import DeferredLog.Table.Formats
import DeferredLog.Value

/-!
# Values as text

Filling in a format string gives its literal runs and, for each directive, its argument under a hint:
the directive's own, or else the one it inherits from the directive that its format is nested in. Each
value is turned into a `Renderer`, which still waits for the directive and the hint, because one
argument may be shown by several directives.

Metadata that is not a text can be carried as text of the table. It has no characters to show, which
comes to light when the pieces of a format string are joined.
-/

namespace DeferredLog.Display

/-- A piece of output: characters, or metadata carried in place of a text. -/
inductive Piece where
  | chars (cs : List Char)
  | data (value : Json)

/-- The characters of a list of pieces in order. -/
def joinPieces : List Piece → Except Fault (List Char)
  | [] => .ok []
  | .chars cs :: rest =>
    match joinPieces rest with
    | .ok tail => .ok (cs ++ tail)
    | .error e => .error e
  | .data _ :: _ => .error (.display .notText)

/-- What shows a value for a directive under a hint. -/
abbrev Renderer (m : Type → Type) := Directive → Option Hint → m Piece

/-! ## Text -/

/-- The one character of a text. -/
def soleChar? (s : String) : Option Char :=
  match s.toList with
  | [c] => some c
  | _ => none

/-- The characters that metadata spells: those of a text, or the items of a list and the keys of an
object if each is one character. -/
def spelled? : Json → Option (List Char)
  | .string s => some s.toList
  | .array items => items.mapM fun v => v.text?.bind soleChar?
  | .object members => members.mapM fun (k, _) => soleChar? k
  | .null | .bool _ | .integer _ | .number _ => none

/-- Whether a hint asks for the debug form. -/
def isDebug (hint : Option Hint) : Bool := hint.map Hint.kind = some .debug

/-- A text, in quotes under the debug hint. -/
def textPiece (quote : Char) (cs : List Char) (hint : Option Hint) : Piece :=
  .chars (if isDebug hint then escapedText quote cs else cs)

/-- Text of the table. -/
def tableText (format : Json) (hint : Option Hint) : Except Fault Piece :=
  if isDebug hint then
    match spelled? format with
    | some cs => .ok (.chars (escapedText '"' cs))
    | none => .error (.display .notText)
  else
    match format with
    | .string s => .ok (.chars s.toList)
    | v => .ok (.data v)

/-- The bits that a directive cuts out of a bit field. -/
def bitfieldText (d : Directive) (value : Nat) (hint : Option Hint) : Except Fault (List Char) :=
  match d.type with
  | .bitfield r =>
    match extractBits? value r.low r.high with
    | some n => .ok (integerText r.backing.bits n hint)
    | none => .error (.display .badBitRange)
  | _ => .error (.display .noBitRange)

/-! ## Formats -/

section
variable {m : Type → Type} [Monad m] [MonadExceptOf Fault m]

/-- The pieces of a format string; `args` are the renderers of its arguments. -/
def pieces (args : List (Renderer m)) (inherited : Option Hint) : List Fragment → m (List Piece)
  | [] => pure []
  | .literal s :: rest => do
    let tail ← pieces args inherited rest
    pure (.chars s.toList :: tail)
  | .directive d :: rest =>
    match args[d.position]? with
    | none => throwThe Fault (.display (.missingArgument d.position))
    | some render => do
      let piece ← render d (d.hint.or inherited)
      let tail ← pieces args inherited rest
      pure (piece :: tail)

/-- A format string filled in. -/
def fill (f : FormatString) (args : List (Renderer m)) (inherited : Option Hint) :
    m (List Char) := do
  let ps ← pieces args inherited f.fragments
  Fault.lift (joinPieces ps)

/-- The texts of the elements of a slice, all shown alike. -/
def elementTexts (d : Directive) (hint : Option Hint) : List (Renderer m) → m (List (List Char))
  | [] => pure []
  | render :: rest => do
    let piece ← render d hint
    let cs ← Fault.lift (joinPieces [piece])
    let tail ← elementTexts d hint rest
    pure (cs :: tail)

mutual

/-- What shows a value. -/
def renderer (formats : Nat → m FormatString) : Value → Renderer m
  | .integer t n => fun _ hint => pure (.chars (integerText t.bits n hint))
  | .float v => fun _ hint =>
    match floatText v hint with
    | some cs => pure (.chars cs)
    | none => throwThe Fault (.display .floatRange)
  | .bool b => fun _ _ => pure (.chars (if b then "true".toList else "false".toList))
  | .char c => fun _ hint => pure (textPiece '\'' [c] hint)
  | .str s => fun _ hint => pure (textPiece '"' s.toList hint)
  | .istr _ format => fun _ hint => Fault.lift (tableText format hint)
  | .bytes bs => fun _ hint => pure (.chars (bytesText bs hint))
  | .nested index args => fun _ hint => do
    let f ← formats index
    let cs ← fill f (renderers formats args) hint
    pure (.chars cs)
  | .formatSlice _ vs => fun d hint => do
    let texts ← elementTexts d hint (renderers formats vs)
    pure (.chars ('[' :: [',', ' '].intercalate texts ++ [']']))
  | .bitfield _ n => fun d hint => do
    let cs ← Fault.lift (bitfieldText d n hint)
    pure (.chars cs)

/-- What shows each of some values. -/
def renderers (formats : Nat → m FormatString) : List Value → List (Renderer m)
  | [] => []
  | v :: vs => renderer formats v :: renderers formats vs

end

/-- A format string filled in with values. -/
def render (formats : Nat → m FormatString) (f : FormatString) (args : List Value)
    (inherited : Option Hint) : m (List Char) :=
  fill f (renderers formats args) inherited

/-- A value shown for a directive; a hint given here overrides the directive's own. -/
def renderValue (formats : Nat → m FormatString) (v : Value) (d : Directive) (hint : Option Hint) :
    m Piece :=
  renderer formats v d (hint.or d.hint)

end

end DeferredLog.Display
