import DeferredLog.Number.Decimal
import DeferredLog.Text.Quoted

/-!
# JSON values

Symbol names may be JSON objects, and their fields are carried as they are. Integers are exact, other
numbers are rounded to binary64, and an object keeps its members in order of first appearance.
`Json.literal` is how a value is shown in a message.
-/

namespace DeferredLog

/-- A JSON value. -/
inductive Json where
  | null
  | bool (b : Bool)
  | integer (n : Int)
  | number (value : Binary)
  | string (s : String)
  | array (items : List Json)
  | object (members : List (String × Json))
  deriving Inhabited

namespace Json

/-- The text of a string value. -/
def text? : Json → Option String
  | string s => some s
  | _ => none

/-- The member of an object. -/
def member? (key : String) : List (String × Json) → Option Json := List.lookup key

/-- Enters a member: a key that is there already gets the new value in its old place. -/
def enter (key : String) (value : Json) : List (String × Json) → List (String × Json)
  | [] => [(key, value)]
  | (k, v) :: rest => if k = key then (k, value) :: rest else (k, v) :: enter key value rest

/-! ## In messages -/

/-- The text of a floating-point number in a message. -/
def numberLiteral : Binary → String
  | .nan => "nan"
  | .infinite negative => if negative then "-inf" else "inf"
  | .finite negative d =>
    (if negative then "-" else "") ++ String.ofList ((Decimal.shortest d).text .signed)

mutual

/-- The text of a value in a message. -/
def literal : Json → String
  | null => "None"
  | bool b => if b then "True" else "False"
  | integer n => toString n
  | number v => numberLiteral v
  | string s => Text.quoted s
  | array items => "[" ++ ", ".intercalate (itemLiterals items) ++ "]"
  | object members => "\x7b" ++ ", ".intercalate (memberLiterals members) ++ "\x7d"

/-- The texts of the items of an array. -/
def itemLiterals : List Json → List String
  | [] => []
  | v :: vs => literal v :: itemLiterals vs

/-- The texts of the members of an object. -/
def memberLiterals : List (String × Json) → List String
  | [] => []
  | (k, v) :: vs => (Text.quoted k ++ ": " ++ literal v) :: memberLiterals vs

end

/-- The text of a value where it is part of a sentence: strings stand without quotes. -/
def plain : Json → String
  | string s => s
  | v => literal v

end Json

end DeferredLog
