import DeferredLog.Proofs.Frame.Memory
import DeferredLog.Proofs.Wire.Readings

/-!
# Decoding halts

Entries may lead to themselves by indices on the wire, so nothing but the limit ends the descent into
nested values. Here the depth is counted upwards, and it is open whether the descent ends:
`nestedWithin calls` is given up as still running when more than `calls` calls are inside one another.
With more calls than levels it never is, whatever the bytes and the formats are:

    depth ≤ t.maxDepth → t.maxDepth < calls + depth →
      nestedWithin t formats calls depth index c =
        some (nestedValue t formats (t.maxDepth - depth) index c)                (nestedWithin_eq_some)
-/

namespace DeferredLog

/-- Computations that may not end; `none` is one that has been given up. -/
abbrev Running (α : Type) := ExceptT Fault Option α

/-- That a computation ends with an outcome is kept by all that decoding is made of. -/
def Running.ended : Transfer Running (Except Fault) where
  rel x y := x.run = some y
  rel_pure _ := rfl
  rel_throw _ := rfl
  rel_bind {_ _ x y _ _} hx hf := by
    obtain rfl : x = ExceptT.mk (some y) := hx
    cases y with
    | error e => rfl
    | ok a => exact hf a

/-- Looking something up ends. -/
theorem Running.lift_ended {α : Type} (x : Except Fault α) : Running.ended.rel (Fault.lift x) x := by
  have hlift := Running.ended.lift x
  rwa [Fault.lift_eq_self] at hlift

namespace Wire

variable {t : Table} {formats : Nat → Except Fault FormatString}

/-- Reads the value of an entry inside `depth` levels of nesting. -/
def nestedWithin (t : Table) (formats : Nat → Except Fault FormatString) :
    Nat → Nat → Nat → Cursor → Running (Value × Cursor)
  | 0, _, _, _ => ExceptT.mk none
  | calls + 1, depth, index, c =>
    if t.maxDepth ≤ depth then throwThe Fault (.value (.tooDeep t.maxDepth))
    else do
      let f ← Fault.lift (formats index)
      let (args, c) ← arguments t (nestedWithin t formats calls (depth + 1)) f.arguments c
      pure (.nested index args, c)

/-- As many calls as levels are left, and one more to find that none is. -/
theorem nestedWithin_eq_some {calls depth : Nat} (hdepth : depth ≤ t.maxDepth)
    (hcalls : t.maxDepth < calls + depth) (index : Nat) (c : Cursor) :
    (nestedWithin t formats calls depth index c).run =
      some (nestedValue t formats (t.maxDepth - depth) index c) := by
  induction calls generalizing depth index c with
  | zero => omega
  | succ calls ih =>
    rw [nestedWithin]
    by_cases hlast : t.maxDepth ≤ depth
    · rw [if_pos hlast, Nat.sub_eq_zero_of_le hlast]
      rfl
    · have hlevels : t.maxDepth - depth = t.maxDepth - (depth + 1) + 1 := by omega
      have hnested (index : Nat) (c : Cursor) : (nestedWithin t formats calls (depth + 1) index c).run =
          some (nestedValue t formats (t.maxDepth - (depth + 1)) index c) := ih (by omega) (by omega) index c
      rw [if_neg hlast, hlevels, nestedValue]
      refine Running.ended.rel_bind (Running.lift_ended _) fun f => ?_
      exact Running.ended.rel_bind (Running.ended.arguments hnested f.arguments c) fun _ =>
        Running.ended.rel_pure _

end Wire

end DeferredLog
