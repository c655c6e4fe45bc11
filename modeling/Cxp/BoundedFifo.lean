import Cxp.RunInduction

/-!
# A bounded first-in first-out queue

The abstract machine: `add` puts an element behind the others as long as there
is room, `remove` takes the first one.  The elements removed so far are kept, so
that they can be compared with those added (`removed_prefix`).
-/

open Run

/-- A queue that never holds more than `capacity` elements. -/
structure Fifo (α : Type*) (capacity : Nat) where
  items : List α
  removed : List α
  bound : items.length ≤ capacity

namespace Fifo

/-- The two operations. -/
inductive Op (α : Type*)
  | add (x : α)
  | remove

/-- The element that an operation adds. -/
def Op.added {α : Type*} : Op α → List α
  | add x => [x]
  | remove => []

variable {α : Type*} {capacity : Nat}

/-- Nothing added yet. -/
def empty (α : Type*) (capacity : Nat) : Fifo α capacity := ⟨[], [], Nat.zero_le _⟩

def add (q : Fifo α capacity) (x : α) : Option (Fifo α capacity) :=
  if h : q.items.length < capacity then
    some ⟨q.items ++ [x], q.removed, by rw [List.length_append]; exact h⟩
  else none

def remove (q : Fifo α capacity) : Option (Fifo α capacity) :=
  q.items.head?.map fun x =>
    ⟨q.items.tail, q.removed ++ [x],
      Nat.le_trans (by rw [List.length_tail]; exact Nat.sub_le _ _) q.bound⟩

/-- One operation; a full queue takes nothing, and an empty one gives nothing. -/
def step (q : Fifo α capacity) : Op α → Option (Fifo α capacity)
  | .add x => q.add x
  | .remove => q.remove

theorem step_add {q : Fifo α capacity} (x : α) (hroom : q.items.length < capacity) :
    ∃ r, q.step (.add x) = some r ∧ r.items = q.items ++ [x] ∧ r.removed = q.removed := by
  simp [step, add, hroom]

theorem step_remove {q : Fifo α capacity} {x : α} {rest : List α}
    (hitems : q.items = x :: rest) :
    ∃ r, q.step .remove = some r ∧ r.items = rest ∧ r.removed = q.removed ++ [x] := by
  simp [step, remove, hitems]

/-- One operation: what has been removed, with what is still there, grows by what
is added. -/
theorem step_contents {q r : Fifo α capacity} {op : Op α} (h : q.step op = some r) :
    r.removed ++ r.items = q.removed ++ q.items ++ op.added := by
  cases op with
  | add x =>
      simp only [step, add] at h
      split at h
      · cases h
        simp [Op.added]
      · cases h
  | remove =>
      obtain ⟨x, hx, rfl⟩ := Option.map_eq_some_iff.mp h
      obtain ⟨rest, hq⟩ := List.head?_eq_some_iff.mp hx
      show q.removed ++ [x] ++ q.items.tail = q.removed ++ q.items ++ []
      rw [hq]
      simp

/-- The contents after any operations. -/
theorem exec_contents {q r : Fifo α capacity} {ops : List (Op α)}
    (h : exec step q ops = some r) :
    r.removed ++ r.items = q.removed ++ q.items ++ ops.flatMap Op.added := by
  induction ops generalizing q with
  | nil =>
      cases h
      simp
  | cons op ops ih =>
      obtain ⟨m, hm, hrest⟩ := exec_cons h
      rw [ih hrest, step_contents hm, List.flatMap_cons, List.append_assoc]

/-- **First in, first out**: the elements are removed in the order in which they
have been added. -/
theorem removed_prefix {r : Fifo α capacity} {ops : List (Op α)}
    (h : exec step (empty α capacity) ops = some r) :
    r.removed <+: ops.flatMap Op.added := by
  have hcontents := exec_contents h
  exact ⟨r.items, hcontents.trans (by simp [empty])⟩

end Fifo
