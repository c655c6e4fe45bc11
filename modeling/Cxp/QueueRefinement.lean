import Cxp.BoundedFifo
import Cxp.InterprocessorQueue

/-!
# The interprocessor queue as a bounded queue (`ipq.m`)

With two processors each interprocessor queue is filled by one of them and
emptied by the other.  The only producer has read `nextAdd` itself, and so its
compare-exchange never fails; `nextRem` may have moved on meanwhile, but only
away from it (`Single`).

The claim of a slot is then the `add` of a first-in first-out queue with room
for `QSIZE - 1` pointers, and the store to `nextRem` is its `remove`.  Between
the claim and the store into the slot the pointer is in the abstract queue
already, and between the exchange and the store to `nextRem` it still is.
-/

namespace Cxp

open Run

/-- Number of processing units. -/
abbrev NPUN : Nat := 2

/-- A processor that adds to the queue of `pun`. -/
abbrev Producer (pun : Fin NPUN) := { u : Fin NPUN // u ≠ pun }

/-- There is one. -/
theorem producer_unique {pun : Fin NPUN} (u v : Producer pun) : u = v := by
  obtain ⟨u, hu⟩ := u
  obtain ⟨v, hv⟩ := v
  apply Subtype.ext
  apply Fin.ext
  have hu' : u.val ≠ pun.val := fun h => hu (Fin.ext h)
  have hv' : v.val ≠ pun.val := fun h => hv (Fin.ext h)
  have hlt : u.val < 2 ∧ v.val < 2 ∧ pun.val < 2 := ⟨u.isLt, v.isLt, pun.isLt⟩
  show u.val = v.val
  omega

/-- The pointers passed to `ipq_add`, in order. -/
def IpqAct.passed {Pun Proc : Type} : IpqAct Pun Proc → List Proc
  | add _ proc => [proc]
  | _ => []

/-- The pointer of a call of `ipq_add` that has not claimed a slot yet. -/
def AddPc.unclaimed {Proc : Type} : AddPc Proc → List Proc
  | loadAdd proc | loadRem proc _ | cas proc _ => [proc]
  | idle | store _ _ => []

namespace IPQueue

variable {Pun Proc : Type} [DecidableEq Pun]

/-- The pointers claimed and not yet returned. -/
def undelivered (s : IPQueue Pun Proc) : List Proc := s.claimed.drop s.returned.length

/-- The operations of the abstract queue that a step amounts to: the exchange
that claims a slot, and the store to `nextRem`. -/
def ops (s : IPQueue Pun Proc) : IpqAct Pun Proc → List (Fifo.Op Proc)
  | .add _ _ => []
  | .run u =>
      match s.adder u with
      | .cas proc a => if s.nextAdd = a then [.add proc] else []
      | _ => []
  | .remove =>
      match s.remover with
      | .release _ _ => [.remove]
      | _ => []

/-- The next step of `ipq_add` takes it back to the head of its loop. -/
def Spins (s : IPQueue Pun Proc) (u : Pun) : Prop :=
  ∃ t proc, s.ipq_add u = some t ∧ t.adder u = .loadAdd proc ∧ s.adder u ≠ .idle

/-- The next step of `ipq_remove` is its last, and it returns null. -/
def ReturnsNull (s : IPQueue Pun Proc) : Prop :=
  s.remover ≠ .idle ∧ s.ipq_remove.remover = .idle ∧ s.ipq_remove.returned = s.returned

/-- `ipq_add` spins only on a queue with `QSIZE - 1` undelivered pointers, and
`ipq_remove` returns null only when there is none, or the slot of the oldest one
has not been filled yet. -/
structure SpinsFull (s : IPQueue Pun Proc) : Prop where
  full : ∀ u, s.Spins u → s.undelivered.length = QSIZE - 1
  unfilled : s.ReturnsNull → s.undelivered = [] ∨
    ∃ u proc rest, s.undelivered = proc :: rest ∧ s.adder u = .store proc s.nextRem

/-- What the producer has read is still true: `nextAdd` is its own, and the
queue, once it has been found nonfull, stays so. -/
def Fresh (s : IPQueue Pun Proc) : AddPc Proc → Prop
  | .loadRem _ a => a = s.nextAdd
  | .cas _ a => a = s.nextAdd ∧ s.nextRem ≠ slotAfter a
  | _ => True

/-- The invariant of a queue with one producer. -/
structure Single (s : IPQueue Pun Proc) : Prop where
  inv : s.Inv
  fresh : ∀ u, s.Fresh (s.adder u)

variable {s t : IPQueue Pun Proc} {act : IpqAct Pun Proc}

omit [DecidableEq Pun] in
theorem single_init : Single (init : IPQueue Pun Proc) := ⟨inv_init, fun _ => trivial⟩

omit [DecidableEq Pun] in
/-- The compare-exchange finds the queue nonfull. -/
theorem Single.casNonfull (h : s.Single) (act : IpqAct Pun Proc) : s.CasNonfull act := by
  cases act with
  | run u =>
      intro p a hu _
      have hfresh := h.fresh u
      rw [hu] at hfresh
      exact hfresh.2
  | _ => trivial

omit [DecidableEq Pun] in
/-- A release moves `nextRem` away from the producer. -/
theorem Single.release_fresh (h : s.Single) {r : Nat} {p : Proc}
    (hr : s.remover = .release r p) : slotAfter r ≠ slotAfter s.nextAdd := by
  have htaking := h.inv.taking
  rw [hr] at htaking
  obtain ⟨hrem, -, hget⟩ := htaking
  have hlt := (List.getElem?_eq_some_iff.mp hget).1
  have hbound := h.inv.bounded
  rw [hrem, h.inv.nextRem_eq, h.inv.nextAdd_eq, slotAfter_mod, slotAfter_mod]
  simp only [QSIZE] at *
  omega

omit [DecidableEq Pun] in
/-- What the producer has read stays true while the target removes. -/
theorem Single.remove_fresh (h : s.Single) {pc : AddPc Proc} (hpc : s.Fresh pc) :
    s.ipq_remove.Fresh pc := by
  unfold ipq_remove
  split
  next => cases pc <;> exact hpc
  next => split <;> cases pc <;> exact hpc
  next => split <;> cases pc <;> exact hpc
  next r p hr =>
    cases pc with
    | cas q a =>
        obtain ⟨ha, -⟩ := hpc
        refine ⟨ha, ?_⟩
        rw [ha]
        exact h.release_fresh hr
    | _ => exact hpc

omit [DecidableEq Pun] in
theorem ipq_remove_adder (s : IPQueue Pun Proc) : s.ipq_remove.adder = s.adder := by
  unfold ipq_remove
  split
  · rfl
  · split <;> rfl
  · split <;> rfl
  · rfl

/-- One step keeps the invariant, if there is one producer only. -/
theorem Single.step (hone : ∀ u v : Pun, u = v) (h : s.Single)
    (hstep : s.step act = some t) : t.Single := by
  refine ⟨h.inv.step (h.casNonfull act) hstep, ?_⟩
  intro v
  cases act with
  | remove =>
      cases hstep
      rw [ipq_remove_adder]
      exact h.remove_fresh (h.fresh v)
  | add u p =>
      obtain rfl := hone u v
      obtain ⟨-, hstep⟩ := Option.ite_none_right_eq_some.mp hstep
      cases hstep
      simp [Fresh]
  | run u =>
      obtain rfl := hone u v
      have hfresh := h.fresh u
      simp only [IPQueue.step, ipq_add] at hstep
      split at hstep
      next => cases hstep
      next =>
        cases hstep
        simp [Fresh]
      next p a hu =>
        rw [hu] at hfresh
        split at hstep
        next =>
          cases hstep
          simp [Fresh]
        next hnonfull =>
          cases hstep
          simp only [Function.update_self]
          exact ⟨hfresh, hnonfull⟩
      next =>
        split at hstep <;> cases hstep <;> simp [Fresh]
      next =>
        cases hstep
        simp [Fresh]

/-- What an abstract queue has to do with the concrete one. -/
structure Simulates (s : IPQueue Pun Proc) (q : Fifo Proc (QSIZE - 1)) : Prop where
  single : s.Single
  items : q.items = s.undelivered
  removed : q.removed = s.returned

omit [DecidableEq Pun] in
/-- The oldest of the undelivered pointers. -/
theorem undelivered_cons {p : Proc} (hget : s.claimed[s.returned.length]? = some p) :
    s.undelivered = p :: s.claimed.drop (s.returned.length + 1) := by
  obtain ⟨hlt, hp⟩ := List.getElem?_eq_some_iff.mp hget
  rw [undelivered, List.drop_eq_getElem_cons hlt, hp]

omit [DecidableEq Pun] in
theorem length_undelivered (s : IPQueue Pun Proc) :
    s.undelivered.length = s.claimed.length - s.returned.length := by
  rw [undelivered, List.length_drop]

omit [DecidableEq Pun] in
/-- A step that neither claims nor releases. -/
theorem Simulates.stays {q : Fifo Proc (QSIZE - 1)} (h : Simulates s q) (ht : t.Single)
    (hclaimed : t.claimed = s.claimed) (hreturned : t.returned = s.returned) :
    ∃ r, exec Fifo.step q [] = some r ∧ Simulates t r := by
  refine ⟨q, rfl, ht, ?_, ?_⟩
  · rw [h.items, undelivered, undelivered, hclaimed, hreturned]
  · rw [h.removed, hreturned]

omit [DecidableEq Pun] in
/-- The claim of a slot adds to the abstract queue. -/
theorem Simulates.adds {q : Fifo Proc (QSIZE - 1)} (h : Simulates s q) (ht : t.Single) {p : Proc}
    (hclaimed : t.claimed = s.claimed ++ [p]) (hreturned : t.returned = s.returned) :
    ∃ r, exec Fifo.step q [.add p] = some r ∧ Simulates t r := by
  have hle := h.single.inv.le
  have hroom : q.items.length < QSIZE - 1 := by
    have hbound := ht.inv.bounded
    rw [hclaimed, hreturned, List.length_append, List.length_singleton] at hbound
    rw [h.items, length_undelivered]
    omega
  obtain ⟨r, hr, hitems, hremoved⟩ := Fifo.step_add p hroom
  refine ⟨r, ?_, ht, ?_, ?_⟩
  · rw [exec, hr]
    rfl
  · rw [hitems, h.items, undelivered, undelivered, hclaimed, hreturned,
      List.drop_append_of_le_length hle]
  · rw [hremoved, h.removed, hreturned]

omit [DecidableEq Pun] in
/-- The store to `nextRem` removes from the abstract queue. -/
theorem Simulates.removes {q : Fifo Proc (QSIZE - 1)} (h : Simulates s q) (ht : t.Single)
    {p : Proc} (hget : s.claimed[s.returned.length]? = some p)
    (hclaimed : t.claimed = s.claimed) (hreturned : t.returned = s.returned ++ [p]) :
    ∃ r, exec Fifo.step q [.remove] = some r ∧ Simulates t r := by
  have hitems := h.items.trans (undelivered_cons hget)
  obtain ⟨r, hr, hitems', hremoved⟩ := Fifo.step_remove hitems
  refine ⟨r, ?_, ht, ?_, ?_⟩
  · rw [exec, hr]
    rfl
  · rw [hitems', undelivered, hclaimed, hreturned, List.length_append, List.length_singleton]
  · rw [hremoved, h.removed, hreturned]

/-- **One step of the queue** is what the abstract one does, or nothing. -/
theorem Simulates.step (hone : ∀ u v : Pun, u = v) {q : Fifo Proc (QSIZE - 1)}
    (h : Simulates s q) (hstep : s.step act = some t) :
    ∃ r, exec Fifo.step q (s.ops act) = some r ∧ Simulates t r := by
  have ht := h.single.step hone hstep
  cases act with
  | add u p =>
      obtain ⟨-, hstep⟩ := Option.ite_none_right_eq_some.mp hstep
      cases hstep
      exact h.stays ht rfl rfl
  | run u =>
      simp only [IPQueue.step, ipq_add] at hstep
      unfold ops
      split at hstep
      next => cases hstep
      next p hu =>
        cases hstep
        simp only [hu]
        exact h.stays ht rfl rfl
      next p a hu =>
        simp only [hu]
        split at hstep
        · cases hstep
          exact h.stays ht rfl rfl
        · cases hstep
          exact h.stays ht rfl rfl
      next p a hu =>
        simp only [hu]
        split at hstep
        next heq =>
          cases hstep
          rw [if_pos heq]
          exact h.adds ht rfl rfl
        next hne =>
          cases hstep
          rw [if_neg hne]
          exact h.stays ht rfl rfl
      next p a hu =>
        cases hstep
        simp only [hu]
        exact h.stays ht rfl rfl
  | remove =>
      cases hstep
      have htaking := h.single.inv.taking
      unfold ops
      unfold ipq_remove at ht ⊢
      cases hr : s.remover with
      | idle =>
          simp only [hr] at ht ⊢
          exact h.stays ht rfl rfl
      | loadAdd r =>
          simp only [hr] at ht ⊢
          split at ht
          next hne =>
            rw [if_pos hne]
            exact h.stays ht rfl rfl
          next heq =>
            rw [if_neg heq]
            exact h.stays ht rfl rfl
      | exchange r =>
          simp only [hr] at ht ⊢
          cases hq : s.que r with
          | none =>
              simp only [hq] at ht ⊢
              exact h.stays ht rfl rfl
          | some p =>
              simp only [hq] at ht ⊢
              exact h.stays ht rfl rfl
      | release r p =>
          simp only [hr] at ht htaking ⊢
          exact h.removes ht htaking.2.2 rfl rfl

omit [DecidableEq Pun] in
/-- Null is returned where nothing is undelivered, or the oldest claimed slot is
still to be filled. -/
theorem Single.returnsNull (h : s.Single) (hnull : s.ReturnsNull) : s.undelivered = [] ∨
    ∃ u p rest, s.undelivered = p :: rest ∧ s.adder u = .store p s.nextRem := by
  obtain ⟨hbusy, hidle, hreturned⟩ := hnull
  have htaking := h.inv.taking
  unfold ipq_remove at hidle hreturned
  cases hr : s.remover with
  | idle => exact absurd hr hbusy
  | loadAdd r =>
      simp only [hr] at htaking hidle
      split at hidle
      next => cases hidle
      next heq =>
        left
        have hempty := h.inv.empty_iff.mp ((not_not.mp heq).trans htaking)
        rw [undelivered, ← hempty, List.drop_length]
  | exchange r =>
      simp only [hr] at htaking hidle
      obtain ⟨hrem, hlt⟩ := htaking
      have hslot : r = s.returned.length % QSIZE := hrem.trans h.inv.nextRem_eq
      have hget : s.claimed[s.returned.length]? = some s.claimed[s.returned.length] :=
        List.getElem?_eq_getElem hlt
      right
      obtain hfilled | ⟨u, hu⟩ | hrelease := h.inv.kept _ _ ⟨Nat.le_refl _, hlt⟩ hget
      · rw [← hslot] at hfilled
        simp only [hfilled] at hidle
        cases hidle
      · exact ⟨u, _, _, undelivered_cons hget, by rw [hu, h.inv.nextRem_eq]⟩
      · rw [hr] at hrelease
        cases hrelease
  | release r p =>
      simp only [hr] at hreturned
      have hlength := congrArg List.length hreturned
      rw [List.length_append, List.length_singleton] at hlength
      omega

/-- The producer spins on a full queue only. -/
theorem Single.spins (h : s.Single) {u : Pun} (hspins : s.Spins u) :
    s.undelivered.length = QSIZE - 1 := by
  obtain ⟨t, p, hstep, hback, hbusy⟩ := hspins
  have hfresh := h.fresh u
  unfold ipq_add at hstep
  cases hu : s.adder u with
  | idle => exact absurd hu hbusy
  | loadAdd q =>
      simp only [hu] at hstep
      cases hstep
      simp at hback
  | loadRem q a =>
      simp only [hu] at hfresh hstep
      split at hstep
      next hfull =>
        have hclaimed := h.inv.full_iff.mp (hfresh ▸ hfull)
        rw [length_undelivered, hclaimed]
        omega
      next =>
        cases hstep
        simp at hback
  | cas q a =>
      simp only [hu] at hfresh hstep
      rw [if_pos hfresh.1.symm] at hstep
      cases hstep
      simp at hback
  | store q a =>
      simp only [hu] at hstep
      cases hstep
      simp at hback

/-- What a step adds, with what is then still unclaimed, is what was unclaimed and
what is passed to `ipq_add`. -/
theorem step_added (hone : ∀ u v : Pun, u = v) (hstep : s.step act = some t) (u : Pun) :
    (s.ops act).flatMap Fifo.Op.added ++ (t.adder u).unclaimed =
      (s.adder u).unclaimed ++ act.passed := by
  cases act with
  | add v p =>
      obtain rfl := hone u v
      obtain ⟨hidle, hstep⟩ := Option.ite_none_right_eq_some.mp hstep
      cases hstep
      cases hu : s.adder u <;> simp [hu] at hidle
      simp [ops, AddPc.unclaimed, IpqAct.passed]
  | run v =>
      obtain rfl := hone u v
      simp only [IPQueue.step, ipq_add] at hstep
      split at hstep
      next => cases hstep
      next p hu =>
        cases hstep
        simp [ops, hu, AddPc.unclaimed, IpqAct.passed]
      next p a hu =>
        split at hstep <;> cases hstep <;> simp [ops, hu, AddPc.unclaimed, IpqAct.passed]
      next p a hu =>
        split at hstep
        next heq =>
          cases hstep
          simp [ops, hu, heq, AddPc.unclaimed, IpqAct.passed, Fifo.Op.added]
        next hne =>
          cases hstep
          simp [ops, hu, hne, AddPc.unclaimed, IpqAct.passed]
      next p a hu =>
        cases hstep
        simp [ops, hu, AddPc.unclaimed, IpqAct.passed]
  | remove =>
      cases hstep
      rw [ipq_remove_adder]
      cases hr : s.remover <;> simp [ops, hr, IpqAct.passed, Fifo.Op.added]

/-- The pointers are added in the order in which they are passed. -/
theorem exec_added (hone : ∀ u v : Pun, u = v) {acts : List (IpqAct Pun Proc)}
    (hrun : exec IPQueue.step s acts = some t) (u : Pun) :
    (trace IPQueue.step ops s acts).flatMap Fifo.Op.added ++ (t.adder u).unclaimed =
      (s.adder u).unclaimed ++ acts.flatMap IpqAct.passed := by
  induction acts generalizing s with
  | nil =>
      cases hrun
      simp [trace]
  | cons act acts ih =>
      obtain ⟨m, hm, hrest⟩ := exec_cons hrun
      rw [trace, hm, Option.map_some, Option.getD_some, List.flatMap_append, List.append_assoc,
        ih hrest, ← List.append_assoc, step_added hone hm, List.flatMap_cons, List.append_assoc]

end IPQueue

variable {Proc : Type}

/-- **The interprocessor queue of a processor is a bounded first-in first-out
queue**, when one other processor fills it: claims and releases are the
operations of the abstract queue, so that pointers are removed in the order in
which they were passed to `ipq_add`; it spins on a full queue only, and
`ipq_remove` fails only on one that is empty or whose oldest pointer is still to
be stored. -/
theorem queue_refines_fifo (pun : Fin NPUN) (acts : List (IpqAct (Producer pun) Proc))
    {s : IPQueue (Producer pun) Proc} (hrun : exec IPQueue.step IPQueue.init acts = some s) :
    (∃ q, exec Fifo.step (Fifo.empty Proc (QSIZE - 1))
        (trace IPQueue.step IPQueue.ops IPQueue.init acts) = some q ∧
      q.items = s.undelivered ∧ q.removed = s.returned) ∧
    s.returned <+: acts.flatMap IpqAct.passed ∧
    Throughout IPQueue.step IPQueue.SpinsFull (IPQueue.init : IPQueue (Producer pun) Proc) acts := by
  have hstart : IPQueue.Simulates (IPQueue.init : IPQueue (Producer pun) Proc)
      (Fifo.empty Proc (QSIZE - 1)) := ⟨IPQueue.single_init, rfl, rfl⟩
  obtain ⟨q, hq, hsim⟩ := exec_simulates
    (fun _ _ _ _ h hstep => h.step producer_unique hstep) hstart hrun
  refine ⟨⟨q, hq, hsim.items, hsim.removed⟩, ?_, ?_⟩
  · have hother : ∀ p : Fin NPUN, ∃ u, u ≠ p := by decide
    obtain ⟨u, hu⟩ := hother pun
    have hadded := IPQueue.exec_added producer_unique hrun ⟨u, hu⟩
    have hremoved := Fifo.removed_prefix hq
    rw [hsim.removed] at hremoved
    exact hremoved.trans ⟨_, hadded⟩
  · refine throughout_of_along (C := fun _ _ => True)
      (fun _ _ _ h _ hstep => h.step producer_unique hstep) ?_ (along_true _ _)
      IPQueue.single_init
    intro s h
    exact ⟨fun _ => h.spins, h.returnsNull⟩

/-- One pointer is claimed, not found in its slot at first, and then returned. -/
theorem queue_refines_fifo_late_store :
    let u : Producer 0 := ⟨1, by decide⟩
    let acts : List (IpqAct (Producer 0) Nat) :=
      [.add u 7, .run u, .run u, .run u, .remove, .remove, .remove, .run u, .remove,
        .remove, .remove, .remove]
    ∃ s, exec IPQueue.step IPQueue.init acts = some s ∧ s.returned = [7] ∧
      s.returned <+: acts.flatMap IpqAct.passed :=
  ⟨_, rfl, rfl, (queue_refines_fifo 0 _ rfl).2.1⟩

end Cxp
