import DeferredLog.FormatString.Basic

/-!
# Argument slots

Every position that directives use is one argument slot. Directives on one position must agree on its
type, except that bit ranges of one backing integer share a slot that covers them all. The positions
in use must be `0 … n - 1`.
-/

namespace DeferredLog

/-- Positions with their types, in order of first use. -/
abbrev Slots := List (Nat × ArgType)

namespace Slots

/-- The type of a slot that two directives use. -/
def merge (position : Nat) (first second : ArgType) : Except FormatError ArgType :=
  if first = second then .ok first
  else
    match first, second with
    | .bitfield a, .bitfield b =>
      if h : b.backing = a.backing then .ok (.bitfield (a.join b h))
      else .error (.backingConflict position a.name b.name)
    | _, _ => .error (.conflict position first.name second.name)

/-- Enters a directive. -/
def enter (position : Nat) (type : ArgType) : Slots → Except FormatError Slots
  | [] => .ok [(position, type)]
  | (p, t) :: rest =>
    if p = position then
      match merge position t type with
      | .ok merged => .ok ((p, merged) :: rest)
      | .error e => .error e
    else
      match enter position type rest with
      | .ok entered => .ok ((p, t) :: entered)
      | .error e => .error e

/-- Enters directives in text order after those that `slots` holds. -/
def enterAll (slots : Slots) : List Directive → Except FormatError Slots
  | [] => .ok slots
  | d :: ds =>
    match enter d.position d.type slots with
    | .ok entered => enterAll entered ds
    | .error e => .error e

/-- The types of the positions `from, from + 1, …` (`count` of them), or the first one not in use. -/
def typesFrom (slots : Slots) (first : Nat) : Nat → Except Nat (List ArgType)
  | 0 => .ok []
  | count + 1 =>
    match slots.lookup first with
    | none => .error first
    | some t =>
      match typesFrom slots (first + 1) count with
      | .ok ts => .ok (t :: ts)
      | .error p => .error p

/-- The slots in wire order, or the first position that no directive uses. -/
def arguments (slots : Slots) : Except Nat (List ArgType) := typesFrom slots 0 slots.length

end Slots

end DeferredLog
