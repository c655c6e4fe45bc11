import Mathlib.Algebra.Group.Nat.Defs
import Mathlib.Logic.Function.Basic
import Mathlib.Order.Basic

/-!
# States and priorities of a process (`sched.h`, `alt.h`)

The two state fields of a process record, and the priorities: how they are
made, packed and compared.
-/

namespace Cxp

/-- The values of `sched_state`. -/
inductive SchedState
  | ready
  | preparingToWait
  | waiting
  deriving DecidableEq

/-- The values of `alt_state`. -/
inductive AltState
  | none
  | enabling
  | waiting
  | ready
  deriving DecidableEq

/-- The low-order twelve bits of a priority; a lower value is a higher
priority. -/
def pri_value (p : Nat) : Nat := p &&& 0x0fff

/-- The high-order three bits of a priority: how many prioritised constructs
the process is nested in. -/
def pri_level (p : Nat) : Nat := p >>> 13

/-- A level and a value, as the sixteen-bit field of the record holds them. -/
def priority (lvl val : Nat) : Nat := ((lvl <<< 13) ||| pri_value val) % 2 ^ 16

/-- The gap between the priorities of two children at the level. -/
def pri_delta (lvl : Nat) : Nat := 0x1000 / 2 ^ (3 * lvl)

/-- The numbers of levels and of children that fit into a priority. -/
def PRI_LEVELS : Nat := 4
def PRI_PROCS : Nat := 8

/-- The priorities of the initial process and of the idle processes. -/
def INIT_PRI : Nat := 0
def IDLE_PRI : Nat := 0x0fff

/-- Priority `p1` is not higher than `p2`. -/
def pri_le (p1 p2 : Nat) : Bool := pri_value p1 ≥ pri_value p2

/-- Priority `p1` is higher than `p2`. -/
def pri_gt (p1 p2 : Nat) : Bool := pri_value p1 < pri_value p2

theorem pri_gt_iff_not_le (p1 p2 : Nat) : pri_gt p1 p2 = true ↔ pri_le p1 p2 = false := by
  simp [pri_gt, pri_le]

end Cxp
