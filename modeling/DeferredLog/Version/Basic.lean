import DeferredLog.Text.CharClass
import DeferredLog.Text.Numeral

/-!
# Version numbers

A version is an optional epoch, a release of dotted numbers, and optional pre-release, post-release,
development and local parts. Letter case, a leading `v`, white space around the text, alternative
spellings of the labels and leading zeros do not count; `Version.text` is the normal form.

Version numbers are read by a library of their own, and `Version.parse?` is what is assumed of it: that it
accepts the texts of this grammar, and which first three numbers of the release it finds in them. The
check of a marker asks for nothing else. In two respects the reader here is an idealised one. It folds the
case of ASCII letters only, so it refuses the four other letters that a matcher without regard to case may
take for one of them: U+0130 and U+0131 for `i`, U+017F for `s` and U+212A for `k`. And it has no limit on
the number of digits.
-/

namespace DeferredLog

open Text

/-- Stages before a release. -/
inductive PreStage where
  | alpha | beta | candidate
  deriving DecidableEq, Repr

/-- The label of a stage in the normal form. -/
def PreStage.label : PreStage → String
  | alpha => "a"
  | beta => "b"
  | candidate => "rc"

/-- A version number. -/
structure Version where
  epoch : Nat
  release : List Nat
  pre : Option (PreStage × Nat)
  post : Option Nat
  dev : Option Nat
  localParts : List String
  deriving DecidableEq, Repr

namespace Version

/-- The first number of the release. -/
def major (v : Version) : Nat := v.release.headD 0

/-- The second number of the release, zero if there is none. -/
def minor (v : Version) : Nat := v.release[1]?.getD 0

/-- The third number of the release, zero if there is none. -/
def patch (v : Version) : Nat := v.release[2]?.getD 0

/-- The normal form. -/
def text (v : Version) : String :=
  let epoch := if v.epoch = 0 then "" else s!"{v.epoch}!"
  let release := ".".intercalate (v.release.map toString)
  let pre :=
    match v.pre with
    | some (stage, n) => stage.label ++ toString n
    | none => ""
  let post :=
    match v.post with
    | some n => s!".post{n}"
    | none => ""
  let dev :=
    match v.dev with
    | some n => s!".dev{n}"
    | none => ""
  let localPart := if v.localParts.isEmpty then "" else "+" ++ ".".intercalate v.localParts
  epoch ++ release ++ pre ++ post ++ dev ++ localPart

/-! ## Reading -/

/-- Splits off a run of ASCII digits. -/
def spanDigits (cs : List Char) : List Char × List Char :=
  (cs.takeWhile Char.isDigit, cs.dropWhile Char.isDigit)

/-- Reads a number of at least one digit. -/
def number? (cs : List Char) : Option (Nat × List Char) :=
  match spanDigits cs with
  | ([], _) => none
  | (ds, rest) => some (Nat.ofDigitChars 10 ds 0, rest)

/-- Whether a character may stand between the pieces of a part. -/
def isSeparator (c : Char) : Bool := c = '-' || c = '_' || c = '.'

/-- Drops a separator from the front. -/
def dropSeparator : List Char → List Char
  | c :: rest => if isSeparator c then rest else c :: rest
  | [] => []

/-- Drops a leading `v`. -/
def dropMark : List Char → List Char
  | 'v' :: rest => rest
  | cs => cs

/-- Reads the epoch, zero if there is none. -/
def epochPart (cs : List Char) : Nat × List Char :=
  match number? cs with
  | some (n, '!' :: rest) => (n, rest)
  | _ => (0, cs)

/-- Reads the numbers that follow the first one of a release; each takes at least two characters. -/
def releaseTail : Nat → List Char → List Nat × List Char
  | 0, cs => ([], cs)
  | fuel + 1, cs =>
    match cs with
    | '.' :: rest =>
      match number? rest with
      | some (n, tail) =>
        let (ns, tail) := releaseTail fuel tail
        (n :: ns, tail)
      | none => ([], cs)
    | _ => ([], cs)

/-- Reads a release. -/
def release? (cs : List Char) : Option (List Nat × List Char) :=
  match number? cs with
  | none => none
  | some (n, rest) =>
    let (ns, rest) := releaseTail rest.length rest
    some (n :: ns, rest)

/-- Reads a part `[separator]label[separator][number]` with one of the given labels, the first that
fits; without a number it counts as zero. -/
def labelled? {α : Type} (labels : List (String × α)) (cs : List Char) :
    Option (α × Nat × List Char) :=
  let found := labels.findSome? fun (label, a) =>
    (label.toList.isPrefixOf? (dropSeparator cs)).map fun rest => (a, rest)
  match found with
  | none => none
  | some (a, rest) =>
    match number? (dropSeparator rest) with
    | some (n, tail) => some (a, n, tail)
    | none => some (a, 0, dropSeparator rest)

/-- The labels of pre-releases. -/
def preLabels : List (String × PreStage) :=
  [("alpha", .alpha), ("a", .alpha), ("beta", .beta), ("b", .beta), ("preview", .candidate),
   ("pre", .candidate), ("c", .candidate), ("rc", .candidate)]

/-- Reads the pre-release part. -/
def prePart (cs : List Char) : Option (PreStage × Nat) × List Char :=
  match labelled? preLabels cs with
  | some (stage, n, rest) => (some (stage, n), rest)
  | none => (none, cs)

/-- Reads a number behind a hyphen. -/
def hyphenated? : List Char → Option (Nat × List Char)
  | '-' :: rest => number? rest
  | _ => none

/-- Reads the post-release part; a number behind a hyphen is one, too. -/
def postPart (cs : List Char) : Option Nat × List Char :=
  match hyphenated? cs with
  | some (n, rest) => (some n, rest)
  | none =>
    match labelled? [("post", ()), ("rev", ()), ("r", ())] cs with
    | some (_, n, rest) => (some n, rest)
    | none => (none, cs)

/-- Reads the development part. -/
def devPart (cs : List Char) : Option Nat × List Char :=
  match labelled? [("dev", ())] cs with
  | some (_, n, rest) => (some n, rest)
  | none => (none, cs)

/-- Splits a text at separators. -/
def pieces : List Char → List (List Char)
  | [] => [[]]
  | c :: cs =>
    match pieces cs with
    | [] => []
    | p :: ps => if isSeparator c then [] :: p :: ps else (c :: p) :: ps

/-- The normal form of a piece of the local part: numbers lose leading zeros. -/
def localPiece (cs : List Char) : String :=
  if cs.all Char.isDigit then toString (Nat.ofDigitChars 10 cs 0) else String.ofList cs

/-- Reads the local part, which ends the text. -/
def localPart? : List Char → Option (List String)
  | [] => some []
  | '+' :: rest =>
    let ps := pieces rest
    if ps.all fun p => !p.isEmpty && p.all fun c => c.isDigit || c.isLower then
      some (ps.map localPiece)
    else none
  | _ => none

/-- Reads a version number. -/
def parse? (text : String) : Option Version :=
  let cs := dropMark ((trim isBlank text.toList).map Char.toLower)
  let (epoch, cs) := epochPart cs
  match release? cs with
  | none => none
  | some (release, cs) =>
    let (pre, cs) := prePart cs
    let (post, cs) := postPart cs
    let (dev, cs) := devPart cs
    (localPart? cs).map fun localParts => ⟨epoch, release, pre, post, dev, localParts⟩

end Version

end DeferredLog
