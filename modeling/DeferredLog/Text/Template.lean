import DeferredLog.Text.Numeral

/-!
# Message templates

A template is a text with directives: `%%` stands for a percent sign, and `%s` for the next argument.
Between the percent sign and its letter a directive may have flags, a width, a precision and a size, in
this order. All arguments are texts and stand as they are, so a directive for a number has nothing to
write. A template takes all of its arguments. Widths and precisions have a limit each, beyond which a template
is refused.
-/

namespace DeferredLog.Text.Template

/-- Why a template cannot be filled in. -/
inductive Fault where
  | missingArgument
  | unusedArgument
  /-- A directive asks for an argument by its name. -/
  | namedArgument
  /-- A directive takes its width or its precision from an argument. -/
  | settingFromArgument
  /-- A directive is for a number or for a character. -/
  | notNumber (letter : Char)
  | widthTooBig
  | precisionTooBig
  /-- No directive has this letter, which stands at a position of the template. -/
  | unknownLetter (letter : Char) (position : Nat)
  /-- The template ends within a directive. -/
  | unfinished
  deriving DecidableEq, Repr

/-- A letter in messages; only visible ASCII is shown, and the control character before the blank. -/
def shownLetter (letter : Char) : Char :=
  if 0x1f ≤ letter.toNat ∧ letter.toNat < 0x7f then letter else '?'

/-- The wording of a fault. -/
def Fault.message : Fault → String
  | missingArgument => "not enough arguments for format string"
  | unusedArgument => "not all arguments converted during string formatting"
  | namedArgument => "format requires a mapping"
  | settingFromArgument => "* wants int"
  | notNumber letter => s!"%{letter} format: the argument is no number"
  | widthTooBig => "width too big"
  | precisionTooBig => "precision too big"
  | unknownLetter letter position =>
    s!"unsupported format character '{shownLetter letter}' (0x{hex letter.toNat}) at index {position}"
  | unfinished => "incomplete format"

/-! ## Directives -/

/-- How far a directive has been read. -/
inductive Place where
  | sign
  | flags
  | width (n : Nat)
  | point
  | precision (n : Nat)
  | size
  deriving DecidableEq, Repr

/-- The greatest width. -/
def maxWidth : Nat := 9223372036854775807

/-- The greatest precision. -/
def maxPrecision : Nat := 2147483647

/-- Whether a character is a flag of a directive. -/
def isFlag (c : Char) : Bool := ['-', '+', ' ', '#', '0'].contains c

/-- Whether a character is a size of a directive. -/
def isSize (c : Char) : Bool := ['h', 'l', 'L'].contains c

namespace Place

/-- A number that goes on by a digit, up to a limit. -/
def goOn (limit : Nat) (fault : Fault) (n : Nat) (digit : Char) : Except Fault Nat :=
  let n := Nat.ofDigitChars 10 [digit] n
  if n > limit then .error fault else .ok n

/-- The place behind a character that belongs to no precision; none if it is the letter. -/
def afterPrecision (c : Char) : Option Place := if isSize c then some size else none

/-- The place behind a character that belongs to no width. -/
def afterWidth (c : Char) : Option Place := if c = '.' then some point else afterPrecision c

/-- The place behind a character that belongs to no width yet. -/
def afterFlags (c : Char) : Except Fault (Option Place) :=
  if isFlag c then .ok (some flags)
  else if c = '*' then .error .settingFromArgument
  else if c.isDigit then (goOn maxWidth .widthTooBig 0 c).map (some ∘ width)
  else .ok (afterWidth c)

/-- The place behind a character of a directive; none if the character is its letter. -/
def after (c : Char) : Place → Except Fault (Option Place)
  | sign => if c = '(' then .error .namedArgument else afterFlags c
  | flags => afterFlags c
  | width n =>
    if c.isDigit then (goOn maxWidth .widthTooBig n c).map (some ∘ width) else .ok (afterWidth c)
  | point =>
    if c = '*' then .error .settingFromArgument
    else if c.isDigit then (goOn maxPrecision .precisionTooBig 0 c).map (some ∘ precision)
    else .ok (afterPrecision c)
  | precision n =>
    if c.isDigit then (goOn maxPrecision .precisionTooBig n c).map (some ∘ precision)
    else .ok (afterPrecision c)
  | size => .ok none

end Place

/-- Whether a letter asks for a text. -/
def isTextLetter (letter : Char) : Bool := ['s', 'r', 'a'].contains letter

/-- Whether a letter asks for a number or for a character. -/
def isNumberLetter (letter : Char) : Bool := "diuoxXeEfFgGc".toList.contains letter

/-- What a directive with a letter writes, and the arguments that are left. -/
def written (letter : Char) (position : Nat) :
    List String → Except Fault (List Char × List String)
  | [] => .error .missingArgument
  | argument :: arguments =>
    if isTextLetter letter then .ok (argument.toList, arguments)
    else if isNumberLetter letter then .error (.notNumber letter)
    else .error (.unknownLetter letter position)

/-! ## Filling in -/

/-- Fills in the rest of a template from a position on, within a directive if a place is given. -/
def fillFrom : Option Place → Nat → List String → List Char → Except Fault (List Char)
  | none, _, [], [] => .ok []
  | none, _, _ :: _, [] => .error .unusedArgument
  | some _, _, _, [] => .error .unfinished
  | none, position, arguments, c :: cs =>
    if c = '%' then fillFrom (some .sign) (position + 1) arguments cs
    else (fillFrom none (position + 1) arguments cs).map (c :: ·)
  | some place, position, arguments, c :: cs =>
    if place = .sign ∧ c = '%' then (fillFrom none (position + 1) arguments cs).map ('%' :: ·)
    else
      match place.after c with
      | .error fault => .error fault
      | .ok (some next) => fillFrom (some next) (position + 1) arguments cs
      | .ok none =>
        match written c position arguments with
        | .error fault => .error fault
        | .ok (text, others) => (fillFrom none (position + 1) others cs).map (text ++ ·)

/-- Fills in a template. -/
def fill (template : String) (arguments : List String) : Except Fault String :=
  (fillFrom none 0 arguments template.toList).map String.ofList

end DeferredLog.Text.Template
