/-!
# Paths

Paths with `/` between their components. `join` continues a directory by a name and leaves absolute
names alone.
-/

namespace DeferredLog.Text.Path

/-- The character between components. -/
def separator : Char := '/'

/-- Whether a path starts at the root. -/
def isAbsolute (path : String) : Bool := path.toList.head? = some separator

/-- The path of `name` as seen from a directory; the empty directory adds nothing. -/
def join (directory name : String) : String :=
  if isAbsolute name then name
  else
    match directory.toList.getLast? with
    | none => name
    | some last => if last = separator then directory ++ name else s!"{directory}{separator}{name}"

end DeferredLog.Text.Path
