import DeferredLog.FormatString.Slots
import DeferredLog.FormatString.Tag

/-!
# Reading format strings

`scan` goes through the text once and stops at the first fault; the directives before the fault are
then entered into slots, so a conflict among them, which stands further left, is reported first.
`{{` and `}}` stand for braces; a directive is `{[position][=type][:hint]}`, and one without a
position takes the next number that no other such directive has taken.
-/

namespace DeferredLog

open Text

/-! ## The body of a directive -/

namespace Directive

/-- The texts of the type and the hint in what follows the position. A hint holds no line feed but
may be followed by one. -/
def splitTypeHint? : List Char → Option (Option (List Char) × Option (List Char))
  | [] => some (none, none)
  | '=' :: rest =>
    match rest.dropWhile (· ≠ ':') with
    | [] => some (some rest, none)
    | _ :: hint =>
      if (Hint.dropFinalLineFeed hint).contains '\n' then none
      else some (some (rest.takeWhile (· ≠ ':')), some (Hint.dropFinalLineFeed hint))
  | ':' :: hint =>
    if (Hint.dropFinalLineFeed hint).contains '\n' then none
    else some (none, some (Hint.dropFinalLineFeed hint))
  | rest => if rest = ['\n'] then some (none, none) else none

/-- The type that a directive states; without one the argument carries its own table index. -/
def statedType : Option (List Char) → Except FormatError ArgType
  | none => .ok .format
  | some text => ArgType.parse text

/-- The hint that a directive states. -/
def statedHint : Option (List Char) → Except FormatError (Option Hint)
  | none => .ok none
  | some text =>
    match Hint.parse text with
    | .ok hint => .ok (some hint)
    | .error e => .error e

/-- The position that a body starts with, and the rest. -/
def splitPosition (body : List Char) : Option Nat × List Char :=
  match takeNumeral? body with
  | some (ds, rest) => (some (digitsValue ds), rest)
  | none => (none, body)

/-- Reads the body of a directive; `implicit` is the position it takes if it states none. -/
def parse (implicit : Nat) (body : List Char) : Except FormatError Directive :=
  let (position, rest) := splitPosition body
  match splitTypeHint? rest with
  | none => .error (.malformedDirective (String.ofList body))
  | some (typeText, hintText) =>
    match statedType typeText with
    | .error e => .error e
    | .ok type =>
      match statedHint hintText with
      | .error e => .error e
      | .ok hint => .ok ⟨position.getD implicit, type, hint⟩

/-- The next implicit position after a body. -/
def nextImplicit (implicit : Nat) (body : List Char) : Nat :=
  if (splitPosition body).1.isNone then implicit + 1 else implicit

end Directive

/-! ## The text -/

namespace FormatString

/-- What a scan finds: a character of literal text or a directive. -/
inductive Piece where
  | char (c : Char)
  | directive (d : Directive)
  deriving DecidableEq

/-- Splits the text after an opening brace into a body and what follows its closing brace. -/
def splitBody? : List Char → Option (List Char × List Char)
  | [] => none
  | '}' :: rest => some ([], rest)
  | c :: rest =>
    if c = '{' then none
    else
      match splitBody? rest with
      | some (body, tail) => some (c :: body, tail)
      | none => none

theorem length_lt_of_splitBody? {cs body rest : List Char}
    (h : splitBody? cs = some (body, rest)) : rest.length < cs.length := by
  fun_induction splitBody? cs generalizing body with
  | case1 => simp at h
  | case2 rest' =>
    simp only [Option.some.injEq, Prod.mk.injEq] at h
    simp [← h.2]
  | case3 => simp at h
  | case4 c rest' _ _ body' tail heq ih =>
    simp only [Option.some.injEq, Prod.mk.injEq] at h
    have := ih (h.2 ▸ heq)
    simp only [List.length_cons]
    omega
  | case5 => simp at h

/-- Scans a text that starts `offset` characters into `whole`; `implicit` is the next implicit
position. Yields the pieces up to the first fault, and that fault. -/
def scan (whole : String) (offset implicit : Nat) : List Char → List Piece × Option FormatError
  | [] => ([], none)
  | '}' :: '}' :: rest =>
    let (pieces, fault) := scan whole (offset + 2) implicit rest
    (.char '}' :: pieces, fault)
  | '{' :: '{' :: rest =>
    let (pieces, fault) := scan whole (offset + 2) implicit rest
    (.char '{' :: pieces, fault)
  | c :: rest =>
    if c = '}' then ([], some (.unmatchedBrace offset whole))
    else if c = '{' then
      match _h : splitBody? rest with
      | none => ([], some (.unterminated offset whole))
      | some (body, tail) =>
        match Directive.parse implicit body with
        | .error e => ([], some e)
        | .ok d =>
          let (pieces, fault) :=
            scan whole (offset + body.length + 2) (Directive.nextImplicit implicit body) tail
          (.directive d :: pieces, fault)
    else
      let (pieces, fault) := scan whole (offset + 1) implicit rest
      (.char c :: pieces, fault)
  termination_by cs => cs.length
  decreasing_by
    all_goals simp only [List.length_cons]
    all_goals first
      | omega
      | have := length_lt_of_splitBody? _h; omega

/-- A literal run from its characters in reverse; no characters make no run. -/
def literalRun : List Char → List Fragment
  | [] => []
  | c :: cs => [.literal (String.ofList (c :: cs).reverse)]

/-- Joins the characters of each literal run; `run` holds those of the current one in reverse. -/
def join (run : List Char) : List Piece → List Fragment
  | [] => literalRun run
  | .char c :: pieces => join (c :: run) pieces
  | .directive d :: pieces => literalRun run ++ .directive d :: join [] pieces

/-- The directives among the pieces. -/
def directivesOf : List Piece → List Directive
  | [] => []
  | .char _ :: pieces => directivesOf pieces
  | .directive d :: pieces => d :: directivesOf pieces

/-- Takes a format string apart. -/
def parse (text : String) : Except FormatError FormatString :=
  let (pieces, fault) := scan text 0 0 text.toList
  match Slots.enterAll [] (directivesOf pieces) with
  | .error e => .error e
  | .ok slots =>
    match fault with
    | some e => .error e
    | none =>
      match slots.arguments with
      | .ok arguments => .ok ⟨join [] pieces, arguments⟩
      | .error position => .error (.unusedArgument position text)

end FormatString

end DeferredLog
