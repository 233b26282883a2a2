import DeferredLog.Dwarf.Form

/-!
# Debug information entries

An entry describes a part of the program by its tag and its attributes, and stands below the entries of
the parts that enclose it.
-/

namespace DeferredLog.Dwarf

/-- What an entry describes. -/
inductive Tag where
  | namespaceEntry
  | variableEntry
  | other (code : Nat)
  deriving DecidableEq, Repr

/-- The tag with a code. -/
def Tag.ofCode : Nat → Tag
  | 0x34 => variableEntry
  | 0x39 => namespaceEntry
  | code => other code

/-- What an attribute tells. -/
inductive AttributeName where
  | name
  | compilationDirectory
  /-- Where the line program of a unit starts. -/
  | lineProgram
  | linkageName
  | declarationFile
  | declarationLine
  | location
  | other (code : Nat)
  deriving DecidableEq, Repr

/-- The attribute name with a code. -/
def AttributeName.ofCode : Nat → AttributeName
  | 0x02 => location
  | 0x03 => name
  | 0x10 => lineProgram
  | 0x1b => compilationDirectory
  | 0x3a => declarationFile
  | 0x3b => declarationLine
  | 0x6e => linkageName
  | code => other code

/-- An attribute. -/
structure Attribute where
  name : AttributeName
  form : Form
  value : Value
  deriving DecidableEq, Repr

/-- A debug information entry. -/
structure Entry where
  tag : Tag
  attributes : List Attribute
  deriving DecidableEq, Repr

namespace Entry

/-- The attribute with a name; of several the last counts. -/
def attribute? (e : Entry) (key : AttributeName) : Option Attribute :=
  (e.attributes.filter (·.name = key)).getLast?

/-- The value of an attribute. -/
def value? (e : Entry) (key : AttributeName) : Option Value :=
  (e.attribute? key).map (·.value)

/-- The name that an attribute gives. -/
def text? (e : Entry) (key : AttributeName) : Option String :=
  (e.value? key).map (·.name)

end Entry

/-- An entry with those that enclose it, the innermost first. -/
structure NestedEntry where
  entry : Entry
  ancestors : List Entry
  deriving DecidableEq, Repr

/-- The names of the namespaces around an entry, the outermost first; a nameless one has the empty
name. -/
def NestedEntry.namespaces (e : NestedEntry) : List String :=
  ((e.ancestors.filter (·.tag = .namespaceEntry)).map fun scope =>
    (scope.text? .name).getD "").reverse

end DeferredLog.Dwarf
